import HeaderOutline.Proofs.CanonicalText
import HeaderOutline.Proofs.InterfaceReading
import HeaderOutline.Proofs.Passes
import HeaderOutline.Proofs.SkeletonText
/-!
# The pieces of a skeleton are read back

`ReadsAs gs cs ks hs`: however the text `cs` goes on, it leads from the scopes `gs` to the scopes
`hs` and is read as the calls `ks`. Every piece of a skeleton is such a text, and texts that are
such ones are put together.

The body of a function stands behind its signature, and a template head on a line of its own is
joined with the signature behind it. The bodies of constructors and destructors stand in no class,
so no rule recognizes what is in front of them: it is joined with the brace behind it, and both are
taken for the opening of a block without a head.

Results:
* `ReadsAs.append`: texts put together.
* `readsAs_functionBody`, `readsAs_constructor`, `readsAs_destructor`: empty bodies.
* `readsAs_nameSpace`, `readsAs_start`, `readsAs_end`: namespaces.
-/
namespace HeaderOutline
open Text Declaration

variable {gs hs is : ScopeStack} {cs ds : List Char} {ks js : List Call} {rest : List Token}
  {ls ms : List Lexeme}

/-! ## Texts put together -/

/-- The text holds neither a quote nor a slash. -/
def Unquoted (cs : List Char) : Prop :=
  ∀ c ∈ cs, isQuote c = false ∧ c ≠ '/'

instance (cs : List Char) : Decidable (Unquoted cs) :=
  inferInstanceAs (Decidable (∀ c ∈ cs, _))

theorem Unquoted.append (h : Unquoted cs) (h' : Unquoted ds) : Unquoted (cs ++ ds) :=
  List.forall_mem_append.mpr ⟨h, h'⟩

theorem Unquoted.noComment (h : Unquoted cs) : noComment cs = true := by
  induction cs with
  | nil => rfl
  | cons c cs ih =>
    obtain ⟨⟨hq, hs⟩, hcs⟩ := List.forall_mem_cons.mp h
    simp [HeaderOutline.noComment, hq, hs, ih hcs]

theorem Written.unquoted (h : Written cs ls) : Unquoted cs := fun c hc => by
  rcases h.inked c hc with rfl | hink
  · decide
  · simp only [isInk, Bool.and_eq_true, Bool.not_eq_true', bne_iff_ne] at hink
    exact ⟨hink.1.1.1.2, hink.2⟩

/-- However it goes on, the text leads from the one scopes to the others and is read as the calls.
Nothing in it is quoted. -/
structure ReadsAs (gs : ScopeStack) (cs : List Char) (ks : List Call) (hs : ScopeStack) :
    Prop where
  unquoted : Unquoted cs
  leads : ∀ ds, Leads gs (cs ++ ds) ks hs ds

namespace ReadsAs

theorem nil (gs : ScopeStack) : ReadsAs gs [] [] gs :=
  ⟨fun _ hc => absurd hc List.not_mem_nil, fun ds => .refl gs ds⟩

theorem append (h : ReadsAs gs cs ks hs) (h' : ReadsAs hs ds js is) :
    ReadsAs gs (cs ++ ds) (ks ++ js) is where
  unquoted := h.unquoted.append h'.unquoted
  leads es := by
    rw [List.append_assoc]
    exact (h.leads _).trans (h'.leads es)

end ReadsAs

/-! ## Scopes of a skeleton -/

/-- Only namespaces that have been opened. -/
def InNameSpaces (gs : ScopeStack) : Prop :=
  ∀ f ∈ gs, ∃ name, f = .nameSpace name true

namespace InNameSpaces

theorem context (h : InNameSpaces gs) : gs.context = .nameSpace := by
  cases gs with
  | nil => rfl
  | cons f gs =>
    obtain ⟨name, rfl⟩ := h f List.mem_cons_self
    rfl

theorem isOpened (h : InNameSpaces gs) : ∀ f ∈ gs.head?, f.isOpened = true := fun f hf => by
  obtain ⟨name, rfl⟩ := h f (List.mem_of_mem_head? hf)
  rfl

end InNameSpaces

/-! ## Namespaces -/

/-- The head of a namespace on a line. -/
theorem readsAs_nameSpace {name : Option FreeName} (hg : InNameSpaces gs) (header : String) :
    ReadsAs gs (Skeleton.written header [(.nameSpace ((name.map (·.text)).getD ""), gs)])
      [(.nameSpace ((name.map (·.text)).getD ""), gs)]
      (.nameSpace ((name.map (·.text)).getD "") false :: gs) := by
  have hcalm : AllCalm (.word "namespace" :: name.toList.map (·.lexeme)) := by
    refine allCalm_cons.mpr ⟨by decide, fun l hl => ?_⟩
    obtain ⟨n, -, rfl⟩ := List.mem_map.mp hl
    exact calm_name n
  have htext : Skeleton.written header [(.nameSpace ((name.map (·.text)).getD ""), gs)] =
      joined (.word "namespace" :: name.toList.map (·.lexeme)) ++ ['\n'] := by
    cases name with
    | none => simp [Skeleton.written, Skeleton.piece, joined, spaced, Lexeme.chars, Lexeme.word]
    | some n =>
      have hne : n.text ≠ "" := fun he => n.ne_nil (by rw [he]; rfl)
      simp [Skeleton.written, Skeleton.piece, joined, spaced, Lexeme.chars, Lexeme.word,
        WordOf.lexeme, hne]
  rw [htext]
  refine ⟨.append ?_ (by decide), fun ds => ?_⟩
  · cases name with
    | none => decide
    | some n =>
      have hword : Complete "namespace".toList [.word "namespace"] := complete_word (by decide)
      have := (hword.complete_blank (by simp) (complete_word n.isPlain)).toWritten.unquoted
      simpa [joined, spaced, Lexeme.chars, Lexeme.word, WordOf.lexeme] using this
  · have hend : lineEnd ('\n' :: ds) = [] := rfl
    obtain ⟨r, hm, hr⟩ :=
      @match?_nameSpace (gs.topClass?.map (·.name)) [] name parted_nil (.inl rfl)
    have hline := @leads_of_match_blank gs _ _ ('\n' :: ds) r _ _ _
      (solid_joined (List.cons_ne_nil _ _) fun l hl => (hcalm l hl).1)
      (by rw [hg.context, hend]; exact hm) (by rw [hend]; exact hr)
      (Construct.does_nameSpace ((name.map (·.text)).getD ""))
    rw [List.append_assoc]
    exact hline.trans (.blank (by decide) (.refl _ ds))

theorem readsAs_start (name header : String) (fs : ScopeStack) :
    ReadsAs (.nameSpace name false :: gs) (Skeleton.written header [(.nameSpaceStart name, fs)])
      [(.nameSpaceStart name, .nameSpace name true :: gs)] (.nameSpace name true :: gs) := by
  have htext : Skeleton.written header [(.nameSpaceStart name, fs)] = ['\x7b', '\n', '\n'] := by
    simp [Skeleton.written, Skeleton.piece]
  rw [htext]
  refine ⟨by decide, fun ds => ?_⟩
  have hopen : Leads (.nameSpace name false :: gs) ('\x7b' :: '\n' :: '\n' :: ds)
      [(.nameSpaceStart name, .nameSpace name true :: gs)] (.nameSpace name true :: gs)
      ('\n' :: '\n' :: ds) :=
    leads_opening (.nil _) (@Construct.does_openBrace gs (.nameSpace name false) rfl)
  exact hopen.trans (.blank (by decide) (.blank (by decide) (.refl _ ds)))

theorem readsAs_end (name header : String) (fs : ScopeStack) :
    ReadsAs (.nameSpace name true :: gs) (Skeleton.written header [(.nameSpaceEnd name, fs)])
      [(.nameSpaceEnd name, .nameSpace name true :: gs)] gs := by
  have htext : Skeleton.written header [(.nameSpaceEnd name, fs)] = ['\x7d', '\n'] := by
    simp [Skeleton.written, Skeleton.piece]
  rw [htext]
  refine ⟨by decide, fun ds => ?_⟩
  have hclose : Leads (.nameSpace name true :: gs) ('\x7d' :: '\n' :: ds)
      [(.nameSpaceEnd name, .nameSpace name true :: gs)] gs ('\n' :: ds) :=
    leads_closing (.nil _) .nil (noSemicolon_of_lineEnd rfl)
      (@Construct.does_closeBrace gs (.nameSpace name true) rfl)
  exact hclose.trans (.blank (by decide) (.refl _ ds))

/-! ## Empty bodies -/

/-- An empty body behind a line. -/
def emptyBraces : List Char :=
  ['\n', '\x7b', '\n', '\x7d', '\n', '\n']

theorem leads_bodyEnd {f : Frame} (hf : f.isOpened = true) (he : State.endEvent? f = none)
    (ds : List Char) : Leads (f :: gs) ('\n' :: '\x7d' :: '\n' :: '\n' :: ds) [] gs ds := by
  have hdoes : Construct.closeBrace.Does (f :: gs) [] gs := by
    have h := @Construct.does_closeBrace gs f hf
    rwa [he] at h
  have hclose : Leads (f :: gs) ('\x7d' :: '\n' :: '\n' :: ds) [] gs ('\n' :: '\n' :: ds) :=
    leads_closing (.nil (f :: gs)) .nil (noSemicolon_of_lineEnd rfl) hdoes
  exact Leads.blank (by decide)
    (hclose.trans (.blank (by decide) (.blank (by decide) (.refl _ ds))))

theorem leads_functionBody (name : String) (ds : List Char) :
    Leads (.functionBody name false :: gs) (emptyBraces ++ ds) [] gs ds := by
  have hopen : Construct.openBrace.Does (.functionBody name false :: gs) []
      (.functionBody name true :: gs) := Construct.does_openBrace rfl
  exact Leads.blank (by decide)
    ((leads_opening (.nil _) hopen).trans (leads_bodyEnd rfl rfl ds))

/-! ## Lines that no rule recognizes -/

/-- In a namespace, the text is not recognized but for its delimiters. -/
def Unread (cs : List Char) : Prop :=
  ∀ className, ∀ r ∉ [Rule.openBrace, .closeBrace, .statement], r.appliesIn .nameSpace = true →
    Rule.recognize? className cs r = none

/-- The words in front that rules on text go by in namespaces. -/
def nameSpaceWords : List String :=
  ["extern", "namespace", "inline", "enum"]

theorem unread_of_tokens (hhash : afterMark? '#' cs = none)
    (hhead : ∀ t ∈ (Token.tokens cs).head?, t.text ∉ nameSpaceWords)
    (hclass : classHead? (Token.tokens cs) = none) (hcall : callOperator? (Token.tokens cs) = none)
    (hoperator : operator? (Token.tokens cs) = none)
    (hfunction : function? (Token.tokens cs) = none) : Unread cs := by
  have hword : ∀ {t xs}, Token.tokens cs = t :: xs → t.text ∈ nameSpaceWords → False :=
    fun hx ht => hhead _ (by rw [hx]; rfl) ht
  intro className r hr ha
  cases r with
  | define => simp [Rule.recognize?, Rule.define?, hhash]
  | directive => simp [Rule.recognize?, Rule.directive?, hhash]
  | access | destructor | constructor => cases ha
  | openBrace | closeBrace | statement => simp at hr
  | classHead => simp [Rule.recognize?, Rule.readText, hclass]
  | callOperator => simp [Rule.recognize?, Rule.readText, hcall]
  | operator => simp [Rule.recognize?, Rule.readText, hoperator]
  | function => simp [Rule.recognize?, Rule.readText, hfunction]
  | linkage =>
    by_contra hne
    obtain ⟨t, xs, hx, ht⟩ := Rule.tokens_of_linkage? (Option.isSome_iff_ne_none.mpr hne)
    exact hword hx (by rw [ht]; decide)
  | nameSpace =>
    by_contra hne
    rcases Rule.tokens_of_nameSpace? (Option.isSome_iff_ne_none.mpr hne) with
      ⟨t, xs, hx, ht⟩ | ⟨x, xs, hx, -⟩
    · exact hword hx (by rw [ht]; decide)
    · exact hword hx (by decide)
  | enumHead =>
    have henum : startsEnum cs = false := Bool.eq_false_iff.mpr fun hs => by
      obtain ⟨xs, hx⟩ := Rule.tokens_of_startsEnum hs
      exact hword hx (by decide)
    simp [Rule.recognize?, henum]

theorem match?_unread {className : Option String} (h : Unread cs) (hq : Quiet cs) :
    Rule.match? .nameSpace className cs = none := by
  refine List.findSome?_eq_none_iff.mpr fun r hr => Option.map_eq_none_iff.mpr ?_
  by_cases hd : r ∈ [Rule.openBrace, .closeBrace, .statement]
  · exact Rule.Begins.refuses_delimiterRule hd hq.isDelimiter
  · exact h className r hd (List.mem_filter.mp hr).2

theorem match?_unread_brace {className : Option String} (h : Unread (cs ++ '\x7b' :: ds))
    (hq : Quiet cs) : Rule.match? .nameSpace className (cs ++ '\x7b' :: ds) =
      some (.openBrace, .openBrace, ds) := by
  have hlist : ∀ r ∈ Rule.all.takeWhile (· ≠ .openBrace),
      r ∉ [Rule.openBrace, .closeBrace, .statement] := by decide
  exact Rule.match?_of_recognize? rfl (Rule.recognize?_opening hq).1 fun r hr ha =>
    h className r (hlist r hr) ha

/-- An empty body behind a line that no rule recognizes is passed over. -/
theorem readsAs_unread (hg : InNameSpaces gs) (hw : Written cs ls) (hne : ls ≠ [])
    (h : Unread cs) (h' : Unread (cs ++ [' ', '\x7b'])) : ReadsAs gs (cs ++ emptyBraces) [] gs where
  unquoted := hw.unquoted.append (by decide)
  leads ds := by
    have hsolid := hw.solid hne
    have hjoin := @leads_of_join gs cs ('\n' :: '\x7d' :: '\n' :: '\n' :: ds) '\x7b' hsolid
      (by decide) (by rw [hg.context]; exact match?_unread h hw.quiet)
    have hquiet : Quiet (cs ++ [' ']) := hw.quiet.append (by simp [Quiet, Tame]; decide)
    have hmatch : Rule.match? gs.context (gs.topClass?.map (·.name)) ((cs ++ [' ', '\x7b']) ++
        lineEnd ('\n' :: '\x7d' :: '\n' :: '\n' :: ds)) = some (.openBrace, .openBrace, []) := by
      have hend : lineEnd ('\n' :: '\x7d' :: '\n' :: '\n' :: ds) = [] := rfl
      rw [hend, List.append_nil, hg.context]
      have hm := @match?_unread_brace (cs ++ [' ']) [] (gs.topClass?.map (·.name))
        (by simpa using h') hquiet
      simpa using hm
    have hopen := @leads_of_match gs _ _ ('\n' :: '\x7d' :: '\n' :: '\n' :: ds) _ _ _
      (hsolid.join (.single (by decide))) hmatch (Construct.does_openSkip hg.isOpened)
    have hblock := hopen.trans (@leads_bodyEnd gs .skip rfl rfl ds)
    rw [List.append_assoc, List.cons_append, List.singleton_append, List.append_nil] at hblock
    rw [List.append_assoc]
    exact hjoin.trans hblock

/-! ## Names under classes -/

namespace QualifiedName

variable {q : QualifiedName}

theorem laterText_append (ns ms : List FreeName) :
    laterText (ns ++ ms) = laterText ns ++ laterText ms := by
  induction ns with
  | nil => simp [laterText]
  | cons n ns ih => simp [laterText, ih, String.append_assoc]

/-- The name behind those of classes, outermost first. -/
def under (ns : List FreeName) (q : QualifiedName) : QualifiedName :=
  match ns with
  | [] => q
  | n :: ns => ⟨false, n, ns ++ q.first :: q.later⟩

theorem rooted_under (ns : List FreeName) (h : q.rooted = false) :
    (q.under ns).rooted = false := by
  cases ns with
  | nil => exact h
  | cons n ns => rfl

/-- The names with `::` behind each make a name with `::` behind it. -/
theorem join_names (n : FreeName) (ns : List FreeName) :
    String.join ((n :: ns).map (·.text ++ "::")) =
      (⟨false, n, ns⟩ : QualifiedName).text ++ "::" := by
  induction ns generalizing n with
  | nil => simp [text, laterText]
  | cons m ns ih =>
    have hm := ih m
    rw [List.map_cons, String.join_cons, hm]
    simp [text, laterText, String.append_assoc]

theorem text_under (ns : List FreeName) (h : q.rooted = false) :
    (q.under ns).text = String.join (ns.map (·.text ++ "::")) ++ q.text := by
  cases ns with
  | nil => simp [under]
  | cons n ns =>
    rw [join_names]
    simp [under, text, laterText_append, laterText, h, String.append_assoc]

end QualifiedName

/-- The classes among the scopes bear these names, outermost first. -/
def InClasses (ns : List FreeName) (fs : ScopeStack) : Prop :=
  fs.classes.reverse.map (·.name) = ns.map (·.text)

variable {fs : ScopeStack} {ns : List FreeName}

theorem InClasses.qualifier (h : InClasses ns fs) :
    Skeleton.qualifier fs = String.join (ns.map (·.text ++ "::")) := by
  have hmap : fs.classes.reverse.map (·.name ++ "::") =
      (fs.classes.reverse.map (·.name)).map (· ++ "::") := by rw [List.map_map]; rfl
  rw [Skeleton.qualifier, hmap, h, List.map_map]
  rfl

/-! ## Functions -/

/-- A function is read from its own lexemes, so it can be written. -/
theorem exists_routineText (f : RoutineSyntax) : Nonempty (SignatureText (f.signature none)) := by
  have hspells := spells_joined_nil (calm_routine f).plain
  rw [← List.append_nil f.lexemes] at hspells
  have hread := function?_routine hspells fun us hu =>
    tail?_defines (by rwa [List.append_nil] at hu) (fun t ht => by cases ht)
  exact exists_signatureText (worded_tokens _) hread f.params.notVoid

namespace SignatureText

variable {s : Signature}

/-- The signature without its template head. -/
def bare (x : SignatureText s) : SignatureText { s with template := none } :=
  { x with template := fun t ht => by cases ht }

theorem notEnum (x : SignatureText s) : NotEnum x.lexemes := by
  obtain ⟨l, ms, hl, hb⟩ := x.typeReads.head
  have htype : NotEnum x.plainLexemes := by
    rw [plainLexemes, hl]
    exact ⟨l, _, rfl, hb.ne (by decide)⟩
  rw [lexemes]
  cases s.template with
  | none => exact htype
  | some t => exact ⟨_, _, rfl, by decide⟩

/-- A signature that leaves nothing out is matched as the head of its body. -/
theorem match?_written (x : SignatureText s) (className : Option String)
    (hs : s.isStatic = false ∧ s.isVirtual = false ∧ s.specifier = none) :
    Rule.match? .nameSpace className s.render.toList = some (.function, .function s false, []) := by
  obtain ⟨ts, hts, hbare⟩ := x.written.lexes [] (apart_nil _)
  have hspells := spells_bare [] ts
  rw [List.append_nil] at hts hspells
  rw [hbare, ← List.append_nil x.lexemes] at hspells
  have hread := x.function?_reads hspells fun vs hv =>
    tail?_defined (by rwa [List.append_nil] at hv) (fun t ht => by cases ht)
  have heq : ∀ s : Signature, s.isStatic = false → s.isVirtual = false → s.specifier = none →
      { s with isStatic := false, isVirtual := false, specifier := none } = s := by
    rintro ⟨⟩ rfl rfl rfl
    rfl
  rw [heq s hs.1 hs.2.1 hs.2.2] at hread
  have hrecognize : Rule.recognize? className s.render.toList .function =
      some (.function s false, []) := by
    rw [Rule.recognize?, readText_lexes hts hread]
  obtain ⟨l, ms, hl, hne⟩ := x.notEnum
  refine Rule.match?_of_declRule (by decide) rfl hrecognize
    (Bool.eq_false_iff.mpr fun henum => ?_)
  obtain ⟨xs, hx⟩ := Rule.tokens_of_startsEnum henum
  have hhead := x.written.spells (apart_nil _)
  rw [List.append_nil, hx, hl] at hhead
  exact hne (hhead.head _ rfl).symm

end SignatureText

theorem unread_template {t : TemplateParams} (ht : ∀ n ∈ t.names, IsNameText n) :
    Unread t.render.toList := by
  have hw := (complete_template ht).toWritten
  have hspells := hw.spells (apart_nil _)
  have hnil : Token.tokens [] = [] := Token.tokens_of_next?_none rfl
  rw [List.append_nil, hnil, ← List.append_nil (templateLexemes t)] at hspells
  obtain ⟨v, hv, htemplate⟩ := templateHead?_reads ht hspells
  rw [hv.eq_of_nil] at htemplate
  have htype : type? [] = none := by
    rw [type?]
    simp [typeFront?, bareType?, qualifiedName?, freeName?, Declaration.name?, skipOptional, skip?]
  have hfront : front? (Token.tokens t.render.toList) = some (⟨some t, false, false⟩, []) := by
    simp [front?, htemplate, specifiers]
  refine unread_of_tokens hw.quiet.afterMark? (fun u hu => ?_) ?_ ?_ ?_ ?_
  · rw [hspells.head u hu]
    decide
  · simp [classHead?, htemplate, classKey?]
  · simp [callOperator?, hfront, htype]
  · simp [operator?, hfront, operatorType, htype, skip?]
  · simp [function?, hfront, htype]

/-- A signature and an empty body, with the template head on the same line. -/
theorem leads_signature {s : Signature} (x : SignatureText s) (hg : InNameSpaces gs)
    (hs : s.isStatic = false ∧ s.isVirtual = false ∧ s.specifier = none) (ds : List Char) :
    Leads gs (s.render.toList ++ (emptyBraces ++ ds)) [(.functionDef s, gs)] gs ds := by
  obtain ⟨l, ms, hl, -⟩ := x.notEnum
  have hend : lineEnd (emptyBraces ++ ds) = [] := rfl
  have hhead := leads_of_match (x.written.solid (by rw [hl]; simp))
    (by rw [hend, List.append_nil, hg.context]; exact x.match?_written _ hs)
    (Construct.does_functionDef s)
  exact hhead.trans (leads_functionBody s.name ds)

/-- A signature with an empty body. Its template head stands on a line of its own, which is joined
with the one behind it. -/
theorem readsAs_signature {s : Signature} (x : SignatureText s) (hg : InNameSpaces gs)
    (hs : s.isStatic = false ∧ s.isVirtual = false ∧ s.specifier = none) :
    ReadsAs gs (((s.template.map (·.render ++ "\n")).getD "" ++
        ({ s with template := none } : Signature).render).toList ++ emptyBraces)
      [(.functionDef s, gs)] gs := by
  cases ht : s.template with
  | none =>
    have htext : ({ s with template := none } : Signature).render = s.render := by
      simp [Signature.render, ht]
    refine ⟨?_, fun ds => ?_⟩
    · simpa [htext] using x.written.unquoted.append (by decide)
    · simpa [htext] using leads_signature x hg hs ds
  | some t =>
    have htemplate := complete_template (x.template t ht)
    have htext : s.render.toList = t.render.toList ++
        ' ' :: ({ s with template := none } : Signature).render.toList := by
      simp [Signature.render, ht, String.append_assoc]
    obtain ⟨k, js, hk, -⟩ := x.bare.notEnum
    obtain ⟨c, r, hc, hb⟩ := (x.bare.written.solid (by rw [hk]; simp)).head
    refine ⟨?_, fun ds => ?_⟩
    · have hplain := x.bare.written.unquoted.append (show Unquoted emptyBraces by decide)
      have hhead := htemplate.toWritten.unquoted.append (show Unquoted ['\n'] by decide)
      simpa using hhead.append hplain
    · have hjoin := @leads_of_join gs _ (r ++ (emptyBraces ++ ds)) _
        (htemplate.toWritten.solid htemplate.ne_nil) hb
        (by rw [hg.context]; exact match?_unread (unread_template (x.template t ht))
              htemplate.toWritten.quiet)
      have hsign := leads_signature x hg hs ds
      rw [htext, hc] at hsign
      simpa [hc] using hjoin.trans (by simpa using hsign)

/-- A function of the classes among the scopes, as it is declared outside of them. -/
def Skeleton.outside (fs : ScopeStack) (s : Signature) : Signature :=
  { s with name := qualifier fs ++ s.name, isStatic := false, isVirtual := false }

/-- The empty body of a function stands behind its signature outside of its classes. -/
theorem Skeleton.toList_functionBody (fs : ScopeStack) (s : Signature) :
    (functionBody fs s).toList =
      ((s.template.map (·.render ++ "\n")).getD "" ++
        ({ outside fs s with template := none } : Signature).render).toList ++ emptyBraces := by
  cases hc : s.isConst <;>
    simp [functionBody, emptyBody, outside, Signature.render, emptyBraces, hc]

/-- The function as a member of the classes, as it is declared outside of them. -/
def RoutineSyntax.under (ns : List FreeName) (f : RoutineSyntax) : RoutineSyntax :=
  { f with
    words := []
    name := f.name.under ns
    relative := QualifiedName.rooted_under ns f.relative }

theorem RoutineSyntax.signature_under (f : RoutineSyntax) (hf : InClasses ns fs) :
    (f.under ns).signature none = Skeleton.outside fs (f.signature none) := by
  have hname : (f.name.under ns).text = Skeleton.qualifier fs ++ f.name.text := by
    rw [hf.qualifier, QualifiedName.text_under ns f.relative]
  simp [signature, under, Skeleton.outside, WordsOf.has, hname]

/-- The empty body of a function is read as its definition outside of its classes. -/
theorem readsAs_functionBody (f : RoutineSyntax) (hg : InNameSpaces gs) (hf : InClasses ns fs) :
    ReadsAs gs (Skeleton.functionBody fs (f.signature none)).toList
      [(.functionDef (Skeleton.outside fs (f.signature none)), gs)] gs := by
  obtain ⟨x⟩ := exists_routineText (f.under ns)
  rw [f.signature_under hf] at x
  have hread := readsAs_signature x hg ⟨rfl, rfl, rfl⟩
  rw [Skeleton.toList_functionBody]
  exact hread

/-! ## Constructors and destructors -/

/-- Behind a type, the tokens neither go on with it nor name a function. -/
structure NamesNothing (ts : List Token) : Prop where
  ends : EndsAlike [] ts
  noOperator : skip? "operator" ts = none
  noName : qualifiedName? ts = none

/-- A type in front is no declaration when nothing is named behind it. -/
theorem unread_typed {e : TypeExpr} (hx : TypeReads (EndsAlike []) e ls)
    (hw : Written cs (ls ++ ms)) (hms : ∀ ⦃rest us⦄, Spells rest ms us → NamesNothing us)
    (ha : Apart cs ds) : Unread (cs ++ ds) := by
  obtain ⟨l, ks, hl, hb⟩ := hx.head
  obtain ⟨c, r, hc⟩ := List.exists_cons_of_ne_nil (hw.ne_nil (by simp [hl]))
  have hhash : afterMark? '#' (cs ++ ds) = none := by
    have hmark := hw.quiet.1 c (by rw [hc]; exact List.mem_cons_self)
    rw [hc, List.cons_append, afterMark?, if_neg hmark.2]
  have hspells := hw.spells ha
  obtain ⟨us, h1, h2⟩ := hspells.split
  obtain ⟨hends, hoperator, hname⟩ := hms h2
  have htype := hx.read hends h1
  rw [hl] at hspells
  have hfront : ∀ t ∈ (Token.tokens (cs ++ ds)).head?, t.text ∉ frontWords := fun t ht => by
    rw [hspells.head t ht]
    exact hb.not_frontWord
  have hskip : skip? "operator" (Token.tokens (cs ++ ds)) = none :=
    hspells.skip?_ne (hb.ne (by decide))
  refine unread_of_tokens hhash (fun t ht => ?_) (classHead?_eq_none hfront) ?_ ?_ ?_
  · rw [hspells.head t ht]
    have hall : ∀ w ∈ nameSpaceWords, w ≠ "::" ∧ w ≠ "const" ∧ isNative w = false ∧
        isFreeName w = false := by decide
    exact fun hm => hb.ne (hall _ hm) rfl
  · simp [callOperator?, front?_none hfront, htype, hoperator]
  · simp [operator?, front?_none hfront, operatorType, htype, startsWith, hoperator, hskip]
  · simp [function?, front?_none hfront, htype, hname]

/-- An empty body behind a type and no name is passed over. -/
theorem readsAs_typed {e : TypeExpr} (hg : InNameSpaces gs) (hx : TypeReads (EndsAlike []) e ls)
    (hw : Written cs (ls ++ ms)) (hms : ∀ ⦃rest us⦄, Spells rest ms us → NamesNothing us) :
    ReadsAs gs (cs ++ emptyBraces) [] gs := by
  obtain ⟨l, ks, hl, -⟩ := hx.head
  have halone := unread_typed hx hw hms (apart_nil cs)
  rw [List.append_nil] at halone
  exact readsAs_unread hg hw (by simp [hl]) halone (unread_typed hx hw hms (apart_blank cs _))

/-- A name can be written so that it is read as a type, wherever that ends. -/
theorem exists_nameText (q : QualifiedName) :
    ∃ ls, TypeReads (EndsAlike []) (.ofTokens [q.text]) ls ∧ Complete q.text.toList ls := by
  have hspells := spells_joined_nil (calm_name_lexemes q).plain
  have hplain : Spells [] (TypeSyntax.plain false (.named q) ⟨0, 0⟩).lexemes
      (Token.tokens (joined q.lexemes)) := by
    simpa [TypeSyntax.lexemes, BareType.lexemes, TypeMarks.lexemes, TypeMarks.texts, constTexts]
      using hspells
  have hread := type?_spells _ hplain fun t ht => by cases ht
  obtain ⟨ls, hls⟩ := exists_typeReads (worded_tokens _) hread
  have hexpr : (TypeSyntax.plain false (.named q) ⟨0, 0⟩).expr = .ofTokens [q.text] := by
    simp [TypeSyntax.expr, BareType.texts, TypeMarks.texts, constTexts]
  rw [hexpr] at hls
  refine ⟨ls, hls, ?_⟩
  have hcomplete := hls.complete
  simpa [TypeExpr.ofTokens, TypeExpr.renderAfter, TypeExpr.needsBlank] using hcomplete

theorem exists_formalTexts (ps : FormalList) :
    ∃ f : Parameter → List Lexeme, ∀ p ∈ ps.values, ParameterText p (f p) := by
  have hspells := spells_joined_nil (calm_formals ps).plain
  obtain ⟨us, hu, hs⟩ := hspells.skip?_self
  obtain ⟨v, -, hread⟩ := parameters?_reads (fun p _ => p.reads) ps.notVoid hu
  have hworded := (worded_tokens (joined ps.lexemes)).of_suffix (suffix_of_skip? hs).1
  have htexts := exists_parameterTexts hworded hread
  choose! f hf using htexts
  exact ⟨f, hf⟩

theorem namesNothing_paren {us : List Token} (h : Spells rest (.mark "(" :: ls) us) :
    NamesNothing us where
  ends := (endsType_of_mark (by decide) h).endsAlike []
  noOperator := h.skip?_ne (by decide)
  noName := by
    have hskip : skip? "::" us = none := h.skip?_ne (by decide)
    simp [qualifiedName?, skipOptional, hskip, freeName?_mark h]

/-- What stands behind the name of a class in front of a destructor names nothing: no name follows
the `::`. -/
theorem namesNothing_tilde {us : List Token}
    (h : Spells rest (.mark "::" :: .mark "~" :: ls) us) : NamesNothing us := by
  obtain ⟨c, vs, rfl, -, hc, hv⟩ := h.uncons
  obtain ⟨t, xs, rfl, hk, -, -⟩ := hv.uncons
  have hc : c.text = "::" := hc
  have ht : t.isName = false := by
    rw [Token.isName, hk]
    rfl
  refine ⟨⟨⟨fun u hu hnative => ?_, fun d u ws heq _ hu => ?_⟩, fun u hu => ?_⟩, ?_, ?_⟩
  · cases hu
    rw [hc] at hnative
    exact absurd hnative (by decide)
  · cases heq
    rw [ht] at hu
    cases hu
  · cases hu
    rw [hc]
    decide
  · exact if_neg (by rw [hc]; decide)
  · simp [qualifiedName?, skipOptional, skip?, hc, freeName?, Declaration.name?, ht]

theorem written_destructor (n : FreeName) : Written ("::~" ++ n.text ++ "()").toList
    (.mark "::" :: .mark "~" :: n.lexeme :: [.mark "(", .mark ")"]) := by
  have hroot : Written "::".toList [.mark "::"] := .single (l := .mark "::") (by decide)
  have htilde : Written "~".toList [.mark "~"] := .single (l := .mark "~") (by decide)
  have hopen : Written "(".toList [.mark "("] := .single (l := .mark "(") (by decide)
  have hclose : Written ")".toList [.mark ")"] := .single (l := .mark ")") (by decide)
  have hname : Written n.text.toList [n.lexeme] := (complete_word n.isPlain).toWritten
  have hfront := hroot.append htilde (apart_of_last (by decide) _)
  have hparams := hopen.append hclose (apart_of_last (by decide) _)
  have hrest := hname.append hparams (apart_of_head _ (by decide))
  simpa using hfront.append hrest (apart_of_last (by decide) _)

/-- The empty body of a constructor is passed over. -/
theorem readsAs_constructor (n : FreeName) (ps : FormalList) (hg : InNameSpaces gs)
    (hf : InClasses ns fs) :
    ReadsAs gs (Skeleton.emptyBody fs n.text (renderParams ps.values) false).toList [] gs := by
  obtain ⟨ls, hx, hname⟩ := exists_nameText (QualifiedName.under ns ⟨false, n, []⟩)
  obtain ⟨f, hps⟩ := exists_formalTexts ps
  have hw := hname.append_complete (complete_parameters hps) (apart_of_head _ (by simp; decide))
  have htext : (Skeleton.emptyBody fs n.text (renderParams ps.values) false).toList =
      (QualifiedName.under ns ⟨false, n, []⟩).text.toList ++
        ("(" ++ renderParams ps.values ++ ")").toList ++ emptyBraces := by
    rw [QualifiedName.text_under ns rfl, ← hf.qualifier]
    simp [Skeleton.emptyBody, emptyBraces, QualifiedName.text, QualifiedName.laterText]
  rw [htext]
  exact readsAs_typed hg hx hw.toWritten fun _ _ hu => namesNothing_paren hu

/-- The empty body of a destructor is passed over. -/
theorem readsAs_destructor (n m : FreeName) (hg : InNameSpaces gs) (hf : InClasses (m :: ns) fs) :
    ReadsAs gs (Skeleton.emptyBody fs ("~" ++ n.text) "" false).toList [] gs := by
  obtain ⟨ls, hx, hname⟩ := exists_nameText ⟨false, m, ns⟩
  have hw := hname.append (written_destructor n) (apart_of_head _ (by simp; decide))
  have htext : (Skeleton.emptyBody fs ("~" ++ n.text) "" false).toList =
      (⟨false, m, ns⟩ : QualifiedName).text.toList ++ ("::~" ++ n.text ++ "()").toList ++
        emptyBraces := by
    rw [Skeleton.emptyBody, hf.qualifier, QualifiedName.join_names]
    simp [emptyBraces]
  rw [htext]
  exact readsAs_typed hg hx hw fun _ _ hu => namesNothing_tilde hu

end HeaderOutline
