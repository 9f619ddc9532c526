import HeaderOutline.Declaration.Default
import HeaderOutline.Signature
/-!
# Template heads

The head `template <typename T, class U = int>` in front of a declaration. Only the names are kept.
A list may be empty; every item needs its `typename` or `class`.

Results: `suffix_of_templateHead?`, what is left is an end of the tokens.
-/
namespace HeaderOutline.Declaration

/-- One template parameter with its default value. -/
def templateItem? (ts : List Token) : Option (String × List Token) :=
  match (skip? "typename" ts).or (skip? "class" ts) with
  | none => none
  | some rest => (name? rest).map fun (name, behind) => (name, skipAssigned ">" behind)

theorem advances_templateItem? : Advances templateItem? := by
  intro ts r a h
  unfold templateItem? at h
  split at h
  · cases h
  · next rest hw =>
    rw [Option.map_eq_some_iff] at h
    obtain ⟨⟨name, behind⟩, hn, heq⟩ := h
    simp only [Prod.mk.injEq] at heq
    obtain ⟨-, rfl⟩ := heq
    have h1 : rest <:+ ts ∧ rest.length < ts.length := by
      rcases Option.or_eq_some_iff.mp hw with h | ⟨_, h⟩
      · exact suffix_of_skip? h
      · exact suffix_of_skip? h
    have h2 := advances_name? hn
    have h3 := suffix_skipAssigned ">" behind
    exact ⟨h3.trans (h2.1.trans h1.1), by have := h3.length_le; omega⟩

/-- The template head of a declaration, if it has one. A head that is not well-formed is refused.
Mirrors `parse_template_decl`. -/
def templateHead? (ts : List Token) : Option (Option TemplateParams × List Token) :=
  match skip? "template" ts with
  | none => some (none, ts)
  | some rest =>
    match skip? "<" rest with
    | none => none
    | some inner =>
      match skip? ">" inner with
      | some behind => some (some ⟨[]⟩, behind)
      | none => (commaList templateItem? ">" inner).map fun (names, behind) =>
        (some ⟨names⟩, behind)

theorem suffix_of_templateHead? {ts r : List Token} {t : Option TemplateParams}
    (h : templateHead? ts = some (t, r)) : r <:+ ts := by
  unfold templateHead? at h
  split at h
  · simp only [Option.some.injEq, Prod.mk.injEq] at h
    exact h.2 ▸ List.suffix_refl _
  · next rest h1 =>
    split at h
    · cases h
    · next inner h2 =>
      have hs := (suffix_of_skip? h2).1.trans (suffix_of_skip? h1).1
      split at h
      · next behind h3 =>
        simp only [Option.some.injEq, Prod.mk.injEq] at h
        exact h.2 ▸ (suffix_of_skip? h3).1.trans hs
      · rw [Option.map_eq_some_iff] at h
        obtain ⟨⟨names, behind⟩, hl, heq⟩ := h
        simp only [Prod.mk.injEq] at heq
        exact heq.2 ▸ (advances_commaList advances_templateItem? ">" hl).1.trans hs

end HeaderOutline.Declaration
