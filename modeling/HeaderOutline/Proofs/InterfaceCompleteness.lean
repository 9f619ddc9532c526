import HeaderOutline.Proofs.Completeness
import HeaderOutline.Proofs.InterfaceReading
/-!
# Every printed interface is recognized

An interface that is printed from its syntax is read to its end, nothing is given up, no scope stays
open, and its constructs are reported in order. The proof is that for plain headers; the parts that
both have in common are passed as there.

Results: `parse_interface`.
-/
namespace HeaderOutline
open Text Declaration

variable {fs : ScopeStack} {ms : List Lexeme}

/-! ## Declarations -/

theorem passes_routine {f : RoutineSyntax} {spec : Option Specifier}
    (hc : fs.context.holdsDeclarations) :
    Passes fs ((f.lexemes ++ specifierLexemes spec) ++ .mark ";" :: ms)
      [(.functionDecl (f.signature spec), fs)] fs ms := by
  have hcalm := allCalm_append.mpr ⟨calm_routine f, calm_specifier spec⟩
  refine passes_ended .function hcalm (by decide) (by decide) (fun text hp => ?_)
    (Construct.does_functionDecl (f.signature spec))
  rw [List.append_assoc]
  refine match?_routine _ hc (firm_append (calm_specifier spec) (by decide)) hp fun ts h => ?_
  exact function?_routine h fun _ => tail?_declares

theorem passes_routineBody {f : RoutineSyntax} {body : BodySyntax}
    (hc : fs.context.holdsDeclarations) (hm : Starts ms) :
    Passes fs (f.lexemes ++ .mark "\x7b" :: (body.lexemes ++ .mark "\x7d" :: ms))
      [(.functionDef (f.signature none), fs)] fs ms := by
  obtain ⟨l, ls, hf, -⟩ := notEnum_routine f
  have hhead : Passes fs (f.lexemes ++ .mark "\x7b" :: (body.lexemes ++ .mark "\x7d" :: ms))
      [(.functionDef (f.signature none), fs)] (.functionBody f.name.text false :: fs)
      (.mark "\x7b" :: (body.lexemes ++ .mark "\x7d" :: ms)) := by
    refine passes_group .function (by simp [hf]) (fun l hl => (calm_routine f l hl).1)
      (unbroken_calm (calm_routine f)) (fun last ds hd => ⟨lineEnd ds, ?_, rfl⟩)
      (Construct.does_functionDef (f.signature none))
    have hread : ∀ ts, Spells (Token.tokens (lineEnd ds)) (f.lexemes ++ []) ts →
        function? ts = some (⟨f.signature none, false⟩, Token.tokens (lineEnd ds)) := fun ts h =>
      function?_routine h fun us hu => tail?_defines (by rwa [List.append_nil] at hu)
        (opensBody_of_laid hd)
    have hmatch := match?_routine (fs.topClass?.map (·.name)) hc (by simp) hd.parted_lineEnd
      hread
    rwa [List.append_nil] at hmatch
  have hopen : Construct.openBrace.Does (.functionBody f.name.text false :: fs) []
      (.functionBody f.name.text true :: fs) := Construct.does_openBrace rfl
  exact (hhead.trans (passes_opening hopen)).trans (passes_body hm)

theorem passes_interfaceDecl {d : InterfaceDecl} (hc : fs.context.holdsDeclarations)
    (hm : Starts ms) : Passes fs (d.lexemes ++ ms) [(d.event, fs)] fs ms := by
  cases d with
  | enum e => exact passes_enum hc
  | function f spec =>
    have h : Passes fs ((f.lexemes ++ specifierLexemes spec) ++ .mark ";" :: ms) _ fs ms :=
      passes_routine hc
    simpa [InterfaceDecl.lexemes, InterfaceDecl.event] using h
  | definition f body =>
    rw [InterfaceDecl.lexemes, List.append_assoc, List.cons_append, List.append_assoc]
    exact passes_routineBody hc hm

variable {c : ClassBody} {n : FreeName}

theorem passes_constructorSyntax {k : ConstructorSyntax} (hn : c.name = n.text) :
    Passes (.classBody c :: fs) (k.lexemes n ++ .mark ";" :: ms)
      [(.constructorDecl c.name k.params.values, .classBody c :: fs)] (.classBody c :: fs) ms := by
  rw [hn]
  refine passes_ended .constructor (calm_constructor n k) (by decide) (by decide)
    (fun text hp => ?_) (Construct.does_constructorDecl ⟨n.text, k.params.values⟩)
  show Rule.match? .classBody (some c.name) _ = _
  rw [hn]
  exact match?_constructorSyntax hp

theorem passes_destructorSyntax {d : DestructorSyntax} (hn : c.name = n.text) :
    Passes (.classBody c :: fs) (d.lexemes n ++ .mark ";" :: ms)
      [(.destructorDecl ("~" ++ c.name), .classBody c :: fs)] (.classBody c :: fs) ms := by
  rw [hn]
  exact passes_ended .destructor (calm_destructor n d) (by decide) (by decide)
    (fun text hp => match?_destructorSyntax hp) (Construct.does_destructorDecl _)

/-! ## What stands ahead -/

theorem starts_routine (f : RoutineSyntax) (ms : List Lexeme) : Starts (f.lexemes ++ ms) := by
  obtain ⟨l, ls, hf, -⟩ := notEnum_routine f
  exact starts_append (by simp [hf]) (calm_routine f) ms

theorem starts_interfaceDecl (d : InterfaceDecl) (ms : List Lexeme) : Starts (d.lexemes ++ ms) := by
  cases d with
  | enum e => exact starts_of_calm (by decide) _
  | function f spec =>
    rw [InterfaceDecl.lexemes, List.append_assoc]
    exact starts_routine f _
  | definition f body =>
    rw [InterfaceDecl.lexemes, List.append_assoc]
    exact starts_routine f _

theorem starts_interfaceMembers (name : FreeName) (m : InterfaceMembers) (ms : List Lexeme) :
    Starts (m.lexemes name ++ ms) := by
  cases m with
  | nil => exact starts_closing _
  | label level rest => exact starts_of_calm (by cases level <;> decide) _
  | constructor k rest =>
    rw [InterfaceMembers.lexemes, List.append_assoc]
    exact starts_append (by simp [ConstructorSyntax.lexemes]) (calm_constructor name k) _
  | destructor d rest =>
    rw [InterfaceMembers.lexemes, List.append_assoc]
    exact starts_append (by simp [DestructorSyntax.lexemes]) (calm_destructor name d) _
  | declaration d rest =>
    rw [InterfaceMembers.lexemes, List.append_assoc]
    exact starts_interfaceDecl d _
  | nested head members rest =>
    rw [InterfaceMembers.lexemes, List.append_assoc]
    exact starts_classHead head _

theorem starts_interface (h : InterfaceSyntax) (hm : Starts ms) : Starts (h.lexemes ++ ms) := by
  cases h with
  | nil => exact hm
  | declaration d rest =>
    rw [InterfaceSyntax.lexemes, List.append_assoc]
    exact starts_interfaceDecl d _
  | classBody head members rest =>
    rw [InterfaceSyntax.lexemes, List.append_assoc]
    exact starts_classHead head _
  | nameSpace name inner rest => exact starts_of_calm (by decide) _

/-! ## Classes and headers -/

theorem passes_interfaceMembers (m : InterfaceMembers) (hn : c.name = n.text) (ho : c.opened = true)
    (hm : Starts ms) : Passes (.classBody c :: fs) (m.lexemes n ++ ms) (m.calls fs c) fs ms := by
  induction m generalizing c n fs ms with
  | nil => exact passes_classEnd hm (Construct.does_closeBrace ho)
  | label level rest ih => exact passes_label.trans (ih hn ho hm)
  | constructor k rest ih =>
    rw [InterfaceMembers.lexemes, List.append_assoc, List.cons_append]
    exact (passes_constructorSyntax hn).trans (ih hn ho hm)
  | destructor d rest ih =>
    rw [InterfaceMembers.lexemes, List.append_assoc, List.cons_append]
    exact (passes_destructorSyntax hn).trans (ih hn ho hm)
  | declaration d rest ih =>
    rw [InterfaceMembers.lexemes, List.append_assoc]
    exact (passes_interfaceDecl (.inr rfl) (starts_interfaceMembers n rest ms)).trans (ih hn ho hm)
  | nested head members rest ih1 ih2 =>
    rw [InterfaceMembers.lexemes, List.append_assoc, List.cons_append, List.append_assoc]
    have hinner := @ih1 (.classBody c :: fs) _ head.body _ rfl rfl
      (starts_interfaceMembers n rest ms)
    exact ((passes_classHead (.inr rfl)).trans hinner).trans (ih2 hn ho hm)

theorem passes_interface (h : InterfaceSyntax) (hc : fs.context = .nameSpace) (hm : Starts ms) :
    Passes fs (h.lexemes ++ ms) (h.calls fs) fs ms := by
  induction h generalizing fs ms with
  | nil => exact Passes.refl fs ms
  | declaration d rest ih =>
    rw [InterfaceSyntax.lexemes, List.append_assoc]
    exact (passes_interfaceDecl (.inl hc) (starts_interface rest hm)).trans (ih hc hm)
  | classBody head members rest ih =>
    rw [InterfaceSyntax.lexemes, List.append_assoc, List.cons_append, List.append_assoc]
    have hinner := @passes_interfaceMembers fs _ head.body _ members rfl rfl
      (starts_interface rest hm)
    exact ((passes_classHead (.inl hc)).trans hinner).trans (ih hc hm)
  | nameSpace name inner rest ih1 ih2 =>
    rw [InterfaceSyntax.lexemes, List.cons_append, List.append_assoc, List.cons_append,
      List.append_assoc]
    let inside : ScopeStack := .nameSpace ((name.map (·.text)).getD "") true :: fs
    have hinner := @ih1 inside _ rfl (starts_closing (rest.lexemes ++ ms))
    have hclose := passes_closing (starts_interface rest hm)
      (@Construct.does_closeBrace fs (.nameSpace ((name.map (·.text)).getD "") true) rfl)
    exact (passes_nameSpace hc).trans (hinner.trans (hclose.trans (ih2 hc hm)))

/-! ## Whole headers -/

theorem plain_interfaceDecl (d : InterfaceDecl) : AllPlain d.lexemes := by
  cases d with
  | enum e => exact plain_enum e
  | function f spec =>
    simp only [InterfaceDecl.lexemes, allPlain_cons, allPlain_append]
    exact ⟨(calm_routine f).plain, (calm_specifier spec).plain, by decide, allPlain_nil⟩
  | definition f body =>
    simp only [InterfaceDecl.lexemes, allPlain_cons, allPlain_append]
    exact ⟨(calm_routine f).plain, by decide, body.plain, by decide, allPlain_nil⟩

theorem plain_interfaceMembers (name : FreeName) (m : InterfaceMembers) :
    AllPlain (m.lexemes name) := by
  induction m generalizing name with
  | nil =>
    simp only [InterfaceMembers.lexemes, allPlain_cons]
    exact ⟨by decide, by decide, allPlain_nil⟩
  | label level rest ih =>
    simp only [InterfaceMembers.lexemes, allPlain_cons]
    exact ⟨by cases level <;> decide, by decide, ih name⟩
  | constructor k rest ih =>
    simp only [InterfaceMembers.lexemes, allPlain_cons, allPlain_append]
    exact ⟨(calm_constructor name k).plain, by decide, ih name⟩
  | destructor d rest ih =>
    simp only [InterfaceMembers.lexemes, allPlain_cons, allPlain_append]
    exact ⟨(calm_destructor name d).plain, by decide, ih name⟩
  | declaration d rest ih =>
    simp only [InterfaceMembers.lexemes, allPlain_append]
    exact ⟨plain_interfaceDecl d, ih name⟩
  | nested head members rest ih1 ih2 =>
    simp only [InterfaceMembers.lexemes, allPlain_cons, allPlain_append]
    exact ⟨(calm_classHead head).plain, by decide, ih1 head.name, ih2 name⟩

theorem plain_interface (h : InterfaceSyntax) : AllPlain h.lexemes := by
  induction h with
  | nil => exact allPlain_nil
  | declaration d rest ih =>
    simp only [InterfaceSyntax.lexemes, allPlain_append]
    exact ⟨plain_interfaceDecl d, ih⟩
  | classBody head members rest ih =>
    simp only [InterfaceSyntax.lexemes, allPlain_cons, allPlain_append]
    exact ⟨(calm_classHead head).plain, by decide, plain_interfaceMembers _ _, ih⟩
  | nameSpace name inner rest ih1 ih2 =>
    have hname : AllPlain (name.toList.map (·.lexeme)) := by
      intro l hl
      obtain ⟨n, -, rfl⟩ := List.mem_map.mp hl
      exact n.isPlain
    simp only [InterfaceSyntax.lexemes, allPlain_cons, allPlain_append]
    exact ⟨by decide, hname, by decide, ih1, by decide, ih2⟩

/-- Lexemes that are passed to their end are read when they are printed. -/
theorem parse_of_passes {ls : List Lexeme} {ks : List Call} (breaks : Nat → Bool)
    (hl : AllPlain ls) (hp : Passes [] ls ks [] []) :
    ∃ f, (parse (String.ofList (print breaks ls))).result = .ok f ∧
      f.summary.unclosedScopes = 0 ∧ f.tally.discarded = 0 ∧
      (parse (String.ofList (print breaks ls))).calls = ks := by
  obtain ⟨cs, hlaid, htexts, hcomment⟩ := laid_print breaks ls
  obtain ⟨last, ds, hd, hleads⟩ := hp _ cs hlaid
  cases hd
  refine parse_of_leads ?_ ?_
  · rw [String.toList_ofList]
    exact hcomment (hlaid.noComment hl)
  · rw [String.toList_ofList]
    exact hleads.of_texts htexts.symm

/-- A printed interface is read to its end: no scope stays open, nothing is given up, and its
constructs are reported in order. -/
theorem parse_interface (h : InterfaceSyntax) (breaks : Nat → Bool) :
    ∃ f, (parse (h.print breaks)).result = .ok f ∧ f.summary.unclosedScopes = 0 ∧
      f.tally.discarded = 0 ∧ (parse (h.print breaks)).calls = h.calls [] := by
  have hpasses := @passes_interface [] [] h rfl (fun _ hm => by cases hm)
  rw [List.append_nil] at hpasses
  exact parse_of_passes breaks (plain_interface h) hpasses

end HeaderOutline
