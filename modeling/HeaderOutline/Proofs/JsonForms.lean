import HeaderOutline.Json.DocTarget
import HeaderOutline.Json.Outline
import HeaderOutline.Proofs.LooseRecords
/-!
# The JSON forms are lossless

Outlines and documentation targets read back as they were written, and they do so from all that
their forms loosen to, at any depth. The reader of each type is told by those of its parts; only
types recur, by their groups.

Results: `forms_lossless`, for outlines and for lists of documentation targets whose lines fit in a
word of 64 bits.
-/
namespace HeaderOutline

open Json (Loosens LoosensAll LooseRecord Recovers)

/-! ## Types and signatures -/

namespace TypeExpr

theorem ofFields?_eq (fields : List (String × Json)) :
    ofFields? fields = Json.required ofList? "fragments" fields := by
  induction fields with
  | nil => rfl
  | cons f fields ih =>
    obtain ⟨key, j⟩ := f
    rw [ofFields?, ih, Json.required, Json.required, List.lookup_cons]
    by_cases h : key = "fragments"
    · rw [if_pos h, h, beq_self_eq_true]
      rfl
    · rw [if_neg h, beq_eq_false_iff_ne.mpr (Ne.symm h)]

theorem recovers_record {js : List Json} {e : TypeExpr}
    (h : ∀ ks, LoosensAll js ks → ofFragments? ks = some e) :
    Recovers ofJson? (.object [("fragments", .list js)]) e := by
  intro k hk
  obtain ⟨others, rfl, hr⟩ := hk.exists_record rfl (by simp)
  rw [ofJson?, ofFields?_eq]
  refine hr.required "fragments" rfl nofun fun k hk => ?_
  cases hk with
  | list hs => rw [ofList?, h _ hs]

theorem ofFragments?_of_loosens {e : TypeExpr} {ks : List Json}
    (h : LoosensAll (toFragments e) ks) : ofFragments? ks = some e := by
  induction e generalizing ks with
  | nil => cases h; rfl
  | token t rest ih =>
    obtain _ | ⟨hk, hs⟩ := h
    cases hk with
    | fragment _ ht =>
      cases ht
      rw [ofFragments?, ih hs, Option.map_some]
    | record hf _ => cases hf
  | group inner rest ih₁ ih₂ =>
    obtain _ | ⟨hk, hs⟩ := h
    cases hk with
    | fragment _ hg =>
      rw [ofFragments?, recovers_record (fun ks => ih₁) _ hg, ih₂ hs]
      rfl
    | record hf _ => cases hf

theorem recovers (e : TypeExpr) : Recovers ofJson? e.toJson e :=
  recovers_record fun _ => ofFragments?_of_loosens

end TypeExpr

theorem TemplateParams.recovers (t : TemplateParams) : Recovers ofJson? t.toJson t :=
  fun k hk => by rw [ofJson?, Recovers.texts t.names k hk, Option.map_some]

theorem AccessLevel.recovers (a : AccessLevel) : Recovers ofJson? a.toJson a :=
  .ofText a.ofJson?_toJson

theorem Parameter.recovers (p : Parameter) : Recovers ofJson? p.toJson p := by
  intro k hk
  obtain ⟨fields, rfl, h⟩ := hk.exists_record rfl (by simp)
  have htype := h.required "ty" rfl nofun p.type.recovers
  have hname := h.optionalField "name" rfl (fun _ => nofun) Recovers.text
  simp [ofJson?, Json.record?, htype, hname]

theorem Signature.recovers (s : Signature) : Recovers ofJson? s.toJson s := by
  intro k hk
  obtain ⟨fields, rfl, h⟩ := hk.exists_record rfl (by simp)
  have htemplate := h.optionalField "template" rfl (fun _ => nofun) TemplateParams.recovers
  have hreturn := h.optionalField "return_type" rfl (fun _ => nofun) TypeExpr.recovers
  have hname := h.required "name" rfl nofun (.text s.name)
  have hparams := h.required "params" rfl nofun (.list fun p _ => p.recovers)
  have hconst := h.required "is_const" rfl nofun (.bool s.isConst)
  have hstatic := h.required "is_static" rfl nofun (.bool s.isStatic)
  have hvirtual := h.required "is_virtual" rfl nofun (.bool s.isVirtual)
  have hspecifier := h.optionalField "specifier" rfl (fun _ => nofun)
    fun s => .ofText s.ofJson?_toJson
  simp [ofJson?, Json.record?, htemplate, hreturn, hname, hparams, hconst, hstatic, hvirtual,
    hspecifier]

/-! ## Outlines -/

theorem MacroDef.recovers (m : MacroDef) : Recovers ofJson? m.toJson m := by
  intro k hk
  obtain ⟨fields, rfl, h⟩ := hk.exists_record rfl (by simp)
  have hname := h.required "name" rfl nofun (.text m.name)
  have hvalue := h.required "value" rfl nofun (.text m.value)
  simp [ofJson?, Json.record?, hname, hvalue]

theorem MacroItem.recovers {m : MacroItem} (hm : m.line < UInt64.size) :
    Recovers ofJson? m.toJson m := by
  intro k hk
  obtain ⟨fields, rfl, h⟩ := hk.exists_record rfl (by simp)
  have hdef := h.required "def" rfl nofun m.definition.recovers
  have hline := h.required "line" rfl nofun (.natural hm)
  simp [ofJson?, Json.record?, hdef, hline]

theorem NamespaceItem.recovers {n : NamespaceItem} (hn : n.line < UInt64.size) :
    Recovers ofJson? n.toJson n := by
  intro k hk
  obtain ⟨fields, rfl, h⟩ := hk.exists_record rfl (by simp)
  have hname := h.required "name" rfl nofun (.text n.name)
  have hpath := h.required "scope_path" rfl nofun (.texts n.path)
  have hline := h.required "line" rfl nofun (.natural hn)
  simp [ofJson?, Json.record?, hname, hpath, hline]

theorem ClassItem.recovers {c : ClassItem} (hc : c.line < UInt64.size) :
    Recovers ofJson? c.toJson c := by
  intro k hk
  obtain ⟨fields, rfl, h⟩ := hk.exists_record rfl (by simp)
  have hname := h.required "name" rfl nofun (.text c.name)
  have hqualified := h.required "qualified_name" rfl nofun (.text c.qualifiedName)
  have hkey := h.required "key" rfl nofun (.ofText c.key.ofJson?_toJson)
  have htemplate := h.optionalField "template" rfl (fun _ => nofun) TemplateParams.recovers
  have haccess := h.optionalField "declared_access" rfl (fun _ => nofun)
    AccessLevel.recovers
  have hline := h.required "line" rfl nofun (.natural hc)
  simp [ofJson?, Json.record?, hname, hqualified, hkey, htemplate, haccess, hline]

theorem EnumDecl.recovers (e : EnumDecl) : Recovers ofJson? e.toJson e := by
  intro k hk
  obtain ⟨fields, rfl, h⟩ := hk.exists_record rfl (by simp)
  have hname := h.optionalField "name" rfl (fun _ => nofun) Recovers.text
  have hmembers := h.required "members" rfl nofun (.texts e.members)
  simp [ofJson?, Json.record?, hname, hmembers]

theorem EnumItem.recovers {e : EnumItem} (he : e.line < UInt64.size) :
    Recovers ofJson? e.toJson e := by
  intro k hk
  obtain ⟨fields, rfl, h⟩ := hk.exists_record rfl (by simp)
  have hdecl := h.required "decl" rfl nofun e.decl.recovers
  have hpath := h.required "scope_path" rfl nofun (.texts e.path)
  have hline := h.required "line" rfl nofun (.natural he)
  simp [ofJson?, Json.record?, hdecl, hpath, hline]

theorem FunctionItem.recovers {f : FunctionItem} (hf : f.line < UInt64.size) :
    Recovers ofJson? f.toJson f := by
  intro k hk
  obtain ⟨fields, rfl, h⟩ := hk.exists_record rfl (by simp)
  have hkind := h.required "kind" rfl nofun (.ofText f.kind.ofJson?_toJson)
  have hsignature := h.required "signature" rfl nofun f.signature.recovers
  have hpath := h.required "scope_path" rfl nofun (.texts f.path)
  have hdefinition := h.required "is_definition" rfl nofun (.bool f.isDefinition)
  have haccess := h.optionalField "access" rfl (fun _ => nofun) AccessLevel.recovers
  have htemplate := h.required "in_template_class" rfl nofun (.bool f.inTemplate)
  have hline := h.required "line" rfl nofun (.natural hf)
  simp [ofJson?, Json.record?, hkind, hsignature, hpath, hdefinition, haccess, htemplate, hline]

namespace Outline

/-- All lines of an outline fit in a word of 64 bits. -/
structure Fits (o : Outline) : Prop where
  macros : ∀ m ∈ o.macros, m.line < UInt64.size
  namespaces : ∀ n ∈ o.namespaces, n.line < UInt64.size
  classes : ∀ c ∈ o.classes, c.line < UInt64.size
  enums : ∀ e ∈ o.enums, e.line < UInt64.size
  functions : ∀ f ∈ o.functions, f.line < UInt64.size

theorem recovers {o : Outline} (ho : o.Fits) : Recovers ofJson? o.toJson o := by
  intro k hk
  obtain ⟨fields, rfl, h⟩ := hk.exists_record rfl (by simp)
  have hpath := h.optionalField "file_path" rfl (fun _ => nofun) Recovers.text
  have hmacros := h.required "macros" rfl nofun
    (.list fun m hm => MacroItem.recovers (ho.macros m hm))
  have hnamespaces := h.required "namespaces" rfl nofun
    (.list fun n hn => NamespaceItem.recovers (ho.namespaces n hn))
  have hclasses := h.required "classes" rfl nofun
    (.list fun c hc => ClassItem.recovers (ho.classes c hc))
  have henums := h.required "enums" rfl nofun
    (.list fun e he => EnumItem.recovers (ho.enums e he))
  have hfunctions := h.required "functions" rfl nofun
    (.list fun f hf => FunctionItem.recovers (ho.functions f hf))
  simp [ofJson?, Json.record?, hpath, hmacros, hnamespaces, hclasses, henums, hfunctions]

end Outline

/-! ## Documentation targets -/

theorem DocSubject.ofFields?_of_loose {subject : DocSubject} {line : Json}
    {fields : List (String × Json)} (h : LooseRecord (("line", line) :: subject.toFields) fields) :
    ofFields? fields = some subject := by
  have hkind : ∀ w, (("line", line) :: subject.toFields).lookup "kind" = some (.text w) →
      Json.required kind? "kind" fields = some w :=
    fun w hw => h.required "kind" hw nofun (.ofText rfl)
  cases subject with
  | aClass => simp [ofFields?, hkind "class" rfl]
  | anEnum => simp [ofFields?, hkind "enum" rfl]
  | function returnsValue params =>
    have hreturns := h.required "returns_value" rfl nofun (.bool returnsValue)
    have hparams := h.required "params" rfl nofun (.texts params)
    simp [ofFields?, hkind "function" rfl, hreturns, hparams]
  | constructor params =>
    have hparams := h.required "params" rfl nofun (.texts params)
    simp [ofFields?, hkind "constructor" rfl, hparams]
  | destructor => simp [ofFields?, hkind "destructor" rfl]

theorem DocTarget.recovers {t : DocTarget} (ht : t.line < UInt64.size) :
    Recovers ofJson? t.toJson t := by
  obtain ⟨line, subject⟩ := t
  intro k hk
  obtain ⟨fields, rfl, h⟩ := hk.exists_record (by cases subject <;> rfl)
    (by cases subject <;> simp [DocSubject.toFields])
  have hline := h.required "line" rfl nofun (.natural ht)
  have hsubject := DocSubject.ofFields?_of_loose h
  simp [ofJson?, hline, hsubject]

/-! ## Both forms -/

/-- An outline reads back from its form, and so does a list of documentation targets; and they do so
from all that these forms loosen to. -/
theorem forms_lossless {o : Outline} {ts : List DocTarget} (ho : o.Fits)
    (hts : ∀ t ∈ ts, t.line < UInt64.size) :
    (Outline.ofJson? o.toJson = some o ∧ ∀ j, Loosens o.toJson j → Outline.ofJson? j = some o) ∧
      (Json.list? DocTarget.ofJson? (.list (ts.map DocTarget.toJson)) = some ts ∧
        ∀ j, Loosens (.list (ts.map DocTarget.toJson)) j →
          Json.list? DocTarget.ofJson? j = some ts) := by
  have houtline := Outline.recovers ho
  have htargets : Recovers (Json.list? DocTarget.ofJson?) (.list (ts.map DocTarget.toJson)) ts :=
    .list fun t ht => DocTarget.recovers (hts t ht)
  exact ⟨⟨houtline.self, houtline⟩, htargets.self, htargets⟩

/-- A function that returns a list of numbers, in the last line that there can be. -/
def lastLine : Outline where
  filePath := none
  macros := []
  namespaces := []
  classes := []
  enums := []
  functions := [⟨.function, ⟨none, some (.token "list" (.group (.token "int" .nil) .nil)), "f", [],
    false, false, false, none⟩, [], false, none, false, UInt64.size - 1⟩]

/-- Its form without nulls, and with keys that are not known: in front of all others, in the
function, and in the group of the type that it returns. -/
def lastLineForm : Json :=
  .object [("version", .natural 2), ("macros", .list []), ("namespaces", .list []),
    ("classes", .list []), ("enums", .list []),
    ("functions", .list [.object [("kind", .text "function"),
      ("signature", .object [
        ("return_type", .object [("fragments", .list [.object [("Token", .text "list")],
          .object [("Group", .object [("fragments", .list [.object [("Token", .text "int")]]),
            ("depth", .natural 1)])]])]),
        ("name", .text "f"), ("params", .list []), ("is_const", .bool false),
        ("is_static", .bool false), ("is_virtual", .bool false)]),
      ("scope_path", .list []), ("is_definition", .bool false), ("column", .null),
      ("in_template_class", .bool false), ("line", .natural (UInt64.size - 1))]])]

theorem loosens_lastLineForm : Loosens lastLine.toJson lastLineForm := by
  have htype : Loosens (TypeExpr.token "list" (.group (.token "int" .nil) .nil)).toJson _ :=
    .record rfl (.keep (.list (.cons (.refl _) (.cons (.fragment rfl (.record rfl
      (.keep (.refl _) (.add "depth" (.natural 1) (by decide) .nil)))) .nil))) .nil)
  have hsignature : Loosens lastLine.functions[0].signature.toJson _ :=
    .record rfl (.drop (.keep htype (.keep (.refl _) (.keep (.refl _) (.keep (.refl _)
      (.keep (.refl _) (.keep (.refl _) (.drop .nil))))))))
  have hfunction : Loosens lastLine.functions[0].toJson _ :=
    .record rfl (.keep (.refl _) (.keep hsignature (.keep (.refl _) (.keep (.refl _)
      (.drop (.add "column" .null (by decide)
        (.keep (.refl _) (.keep (.refl _) .nil))))))))
  exact .record rfl (.add _ _ (by decide) (.drop (.keep (.refl _) (.keep (.refl _) (.keep (.refl _)
    (.keep (.refl _) (.keep (.list (.cons hfunction .nil)) .nil)))))))

/-- The function reads back from the form without nulls and with other keys, and so does a
constructor from the form with a key of functions. -/
theorem forms_lossless_lastLine :
    lastLine.Fits ∧ Outline.ofJson? lastLineForm = some lastLine ∧
      Json.list? DocTarget.ofJson? (.list [.object [("line", .natural 4),
        ("returns_value", .null), ("kind", .text "constructor"), ("params", .texts ["size"])]]) =
          some [⟨4, .constructor ["size"]⟩] := by
  have hfits : lastLine.Fits := ⟨nofun, nofun, nofun, nofun, by decide⟩
  have hlines : ∀ t ∈ [DocTarget.mk 4 (.constructor ["size"])], t.line < UInt64.size := by decide
  obtain ⟨⟨-, houtline⟩, -, htargets⟩ := forms_lossless hfits hlines
  refine ⟨hfits, houtline _ loosens_lastLineForm, htargets _ (.list (.cons ?_ .nil))⟩
  exact .record rfl
    (.keep (.refl _) (.add _ _ (by decide) (.keep (.refl _) (.keep (.refl _) .nil))))

end HeaderOutline
