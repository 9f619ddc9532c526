import HeaderOutline.Declaration.Default
import HeaderOutline.Declaration.Type
import HeaderOutline.Signature
/-!
# Parameter lists

The parameters behind an opening parenthesis, up to and with the closing one. A parameter is `...`
or a type with an optional name and an optional default value. The list `void` is empty.

Results: `advances_parameters?`.
-/
namespace HeaderOutline.Declaration

def parameterName (ts : List Token) : Option String × List Token :=
  match freeName? ts with
  | some (name, rest) => (some name, rest)
  | none => (none, ts)

theorem suffix_parameterName (ts : List Token) : (parameterName ts).2 <:+ ts := by
  unfold parameterName
  split
  · next h => exact (advances_freeName? h).1
  · exact List.suffix_refl _

/-- One parameter with its default value. Mirrors one round of the loop in `parse_params`. -/
def parameter? (ts : List Token) : Option (Parameter × List Token) :=
  match skip? "..." ts with
  | some rest => some (⟨.ofTokens ["..."], none⟩, rest)
  | none =>
    (type? ts).map fun (type, behind) =>
      let (name, rest) := parameterName behind
      (⟨type, name⟩, skipAssigned ")" rest)

theorem advances_parameter? : Advances parameter? := by
  intro ts r a h
  unfold parameter? at h
  split at h
  · next rest hs =>
    simp only [Option.some.injEq, Prod.mk.injEq] at h
    exact h.2 ▸ suffix_of_skip? hs
  · rw [Option.map_eq_some_iff] at h
    obtain ⟨⟨type, behind⟩, ht, heq⟩ := h
    simp only [Prod.mk.injEq] at heq
    obtain ⟨-, rfl⟩ := heq
    have h1 := advances_type? ht
    have h2 := suffix_parameterName behind
    have h3 := suffix_skipAssigned ")" (parameterName behind).2
    have h4 := h3.trans h2
    exact ⟨h4.trans h1.1, by have := h4.length_le; omega⟩

/-- The parameters behind the opening parenthesis. Mirrors `parse_params`. -/
def parameters? (ts : List Token) : Option (List Parameter × List Token) :=
  match (skip? ")" ts).or ((skip? "void" ts).bind (skip? ")")) with
  | some rest => some ([], rest)
  | none => commaList parameter? ")" ts

theorem advances_parameters? : Advances parameters? := by
  intro ts r a h
  unfold parameters? at h
  split at h
  · next rest hs =>
    simp only [Option.some.injEq, Prod.mk.injEq] at h
    obtain ⟨-, rfl⟩ := h
    rcases Option.or_eq_some_iff.mp hs with hs | ⟨_, hs⟩
    · exact suffix_of_skip? hs
    · obtain ⟨mid, h1, h2⟩ := Option.bind_eq_some_iff.mp hs
      have h3 := suffix_of_skip? h1
      have h4 := suffix_of_skip? h2
      exact ⟨h4.1.trans h3.1, by omega⟩
  · exact advances_commaList advances_parameter? ")" h

end HeaderOutline.Declaration
