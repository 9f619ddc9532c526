import HeaderOutline.Proofs.Passes
/-!
# Every printed header is recognized

A header that is printed from its syntax is read to its end, nothing is given up, no scope stays
open, and the constructs that are reported are exactly those of the syntax in order, however the
lines are broken where they may be. The proof goes along the members of classes and the items of
headers: each passes its lexemes and comes to what stands behind it.

Results: `parse_print`.
-/
namespace HeaderOutline

variable {fs : ScopeStack} {ms : List Lexeme}

/-! ## What stands ahead -/

theorem starts_of_calm {l : Lexeme} (hl : l.Calm) (ls : List Lexeme) : Starts (l :: ls) := by
  intro x hx
  cases hx
  refine ⟨hl.1, fun ht => hl.notMem_semicolon ?_⟩
  rw [Lexeme.chars, ht]
  exact List.mem_cons_self

theorem starts_append {ls : List Lexeme} (hne : ls ≠ []) (h : AllCalm ls) (ms : List Lexeme) :
    Starts (ls ++ ms) := by
  obtain ⟨l, ls, rfl⟩ := List.exists_cons_of_ne_nil hne
  exact starts_of_calm (allCalm_cons.mp h).1 _

theorem starts_declaration (d : DeclSyntax) (ms : List Lexeme) : Starts (d.lexemes ++ ms) := by
  have hf : ∀ (f : FunctionSyntax) ns, Starts (f.lexemes ++ ns) := fun f ns =>
    starts_append (by simp [FunctionSyntax.lexemes]) (calm_function f) ns
  cases d with
  | enum e => exact starts_of_calm (by decide) _
  | function f =>
    rw [DeclSyntax.lexemes, List.append_assoc]
    exact hf f _
  | definition f body =>
    rw [DeclSyntax.lexemes, List.append_assoc]
    exact hf f _

theorem starts_classHead (c : ClassSyntax) (ms : List Lexeme) : Starts (c.lexemes ++ ms) :=
  starts_append (by simp [ClassSyntax.lexemes]) (calm_classHead c) ms

theorem starts_closing (ms : List Lexeme) : Starts (.mark "\x7d" :: ms) := by
  intro x hx
  cases hx
  decide

theorem starts_members (name : FreeName) (m : MembersSyntax) (ms : List Lexeme) :
    Starts (m.lexemes name ++ ms) := by
  cases m with
  | nil => exact starts_closing _
  | label level rest => exact starts_of_calm (by cases level <;> decide) _
  | constructor params rest => exact starts_of_calm (calm_name name) _
  | destructor rest => exact starts_of_calm (by decide) _
  | declaration d rest =>
    rw [MembersSyntax.lexemes, List.append_assoc]
    exact starts_declaration d _
  | nested head members rest =>
    rw [MembersSyntax.lexemes, List.append_assoc]
    exact starts_classHead head _

theorem starts_header (h : HeaderSyntax) (hm : Starts ms) : Starts (h.lexemes ++ ms) := by
  cases h with
  | nil => exact hm
  | declaration d rest =>
    rw [HeaderSyntax.lexemes, List.append_assoc]
    exact starts_declaration d _
  | classBody head members rest =>
    rw [HeaderSyntax.lexemes, List.append_assoc]
    exact starts_classHead head _
  | nameSpace name inner rest => exact starts_of_calm (by decide) _

/-! ## Classes -/

theorem passes_members {c : ClassBody} {name : FreeName} (m : MembersSyntax)
    (hn : c.name = name.text) (ho : c.opened = true) (hm : Starts ms) :
    Passes (.classBody c :: fs) (m.lexemes name ++ ms) (m.calls fs c) fs ms := by
  induction m generalizing c name fs ms with
  | nil => exact passes_classEnd hm (Construct.does_closeBrace ho)
  | label level rest ih => exact passes_label.trans (ih hn ho hm)
  | constructor params rest ih =>
    rw [MembersSyntax.lexemes, List.cons_append, List.append_assoc, List.cons_append]
    exact (passes_constructor hn).trans (ih hn ho hm)
  | destructor rest ih => exact (passes_destructor hn).trans (ih hn ho hm)
  | declaration d rest ih =>
    rw [MembersSyntax.lexemes, List.append_assoc]
    exact (passes_declaration (.inr rfl) (starts_members name rest ms)).trans (ih hn ho hm)
  | nested head members rest ih1 ih2 =>
    rw [MembersSyntax.lexemes, List.append_assoc, List.cons_append, List.append_assoc]
    have hinner := @ih1 (.classBody c :: fs) _ head.body _ rfl rfl (starts_members name rest ms)
    exact ((passes_classHead (.inr rfl)).trans hinner).trans (ih2 hn ho hm)

/-! ## Headers -/

theorem passes_header (h : HeaderSyntax) (hc : fs.context = .nameSpace) (hm : Starts ms) :
    Passes fs (h.lexemes ++ ms) (h.calls fs) fs ms := by
  induction h generalizing fs ms with
  | nil => exact Passes.refl fs ms
  | declaration d rest ih =>
    rw [HeaderSyntax.lexemes, List.append_assoc]
    exact (passes_declaration (.inl hc) (starts_header rest hm)).trans (ih hc hm)
  | classBody head members rest ih =>
    rw [HeaderSyntax.lexemes, List.append_assoc, List.cons_append, List.append_assoc]
    have hinner := @passes_members fs _ head.body _ members rfl rfl (starts_header rest hm)
    exact ((passes_classHead (.inl hc)).trans hinner).trans (ih hc hm)
  | nameSpace name inner rest ih1 ih2 =>
    rw [HeaderSyntax.lexemes, List.cons_append, List.append_assoc, List.cons_append,
      List.append_assoc]
    let inside : ScopeStack := .nameSpace ((name.map (·.text)).getD "") true :: fs
    have hinner := @ih1 inside _ rfl (starts_closing (rest.lexemes ++ ms))
    have hclose := passes_closing (starts_header rest hm)
      (@Construct.does_closeBrace fs (.nameSpace ((name.map (·.text)).getD "") true) rfl)
    exact (passes_nameSpace hc).trans (hinner.trans (hclose.trans (ih2 hc hm)))

/-- A printed header is laid out, but for a blank in front. -/
theorem laid_print (breaks : Nat → Bool) (ls : List Lexeme) :
    ∃ cs, Laid (.mark ";") ls cs ∧ textLines cs = textLines (print breaks ls) ∧
      (noComment cs = true → noComment (print breaks ls) = true) := by
  cases ls with
  | nil => exact ⟨[], .nil _, rfl, id⟩
  | cons l ls =>
    refine ⟨' ' :: print breaks (l :: ls), .cons (.inl rfl) (laid_printAfter breaks 0 l ls),
      textLines_blank (by decide) _, fun h => ?_⟩
    exact @noComment_of_suffix [' '] _ h

/-- A printed header is read to its end: no scope stays open, nothing is given up, and its
constructs are reported in order. -/
theorem parse_print (h : HeaderSyntax) (breaks : Nat → Bool) :
    ∃ f, (parse (h.print breaks)).result = .ok f ∧ f.summary.unclosedScopes = 0 ∧
      f.tally.discarded = 0 ∧ (parse (h.print breaks)).calls = h.calls [] := by
  obtain ⟨cs, hl, htexts, hcomment⟩ := laid_print breaks h.lexemes
  have hpasses := @passes_header [] [] h rfl (fun _ hm => by cases hm)
  rw [List.append_nil] at hpasses
  obtain ⟨last, ds, hd, hleads⟩ := hpasses _ cs hl
  cases hd
  have hsource : (h.print breaks).toList = print breaks h.lexemes := String.toList_ofList
  refine parse_of_leads ?_ ?_
  · rw [hsource]
    exact hcomment (hl.noComment (plain_header h))
  · rw [hsource]
    exact hleads.of_texts htexts.symm

end HeaderOutline
