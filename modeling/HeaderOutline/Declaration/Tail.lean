import HeaderOutline.Declaration.Reader
import HeaderOutline.Signature
/-!
# What follows a parameter list

Qualifiers in any order and number, an optional `= 0`, `= default` or `= delete`, and then either a
semicolon, which is taken, or something that may begin a body: a brace, a colon, `try`, or the end
of the fragment, where the body is expected on a later line. Anything else refuses the declaration.

Results: `suffix_of_tail?`.
-/
namespace HeaderOutline.Declaration

/-- The end of a declaration. -/
structure Tail where
  isConst : Bool
  specifier : Option Specifier
  /-- A semicolon ended the declaration. -/
  terminated : Bool
  deriving DecidableEq, Repr

/-- Skips the qualifiers `const`, `override`, `final`, `noexcept` and `throw`, the last two with
an optional group in parentheses; the answer tells whether `const` was among them. `mayGroup`
holds right behind a word that may take a group, and `depth` counts the open parentheses of a
group. A group that does not close is refused. Mirrors the loop in `parse_tail`, with
`skip_parenthesized`. -/
def qualifiers? (mayGroup : Bool) (depth : Nat) (isConst : Bool) :
    List Token → Option (Bool × List Token)
  | [] => if depth = 0 then some (isConst, []) else none
  | t :: ts =>
    if 0 < depth then
      if t.text = "(" then qualifiers? false (depth + 1) isConst ts
      else if t.text = ")" then qualifiers? false (depth - 1) isConst ts
      else qualifiers? false depth isConst ts
    else if mayGroup ∧ t.text = "(" then qualifiers? false 1 isConst ts
    else if t.text = "const" then qualifiers? false 0 true ts
    else if t.text = "override" ∨ t.text = "final" then qualifiers? false 0 isConst ts
    else if t.text = "noexcept" ∨ t.text = "throw" then qualifiers? true 0 isConst ts
    else some (isConst, t :: ts)

theorem suffix_of_qualifiers? {mayGroup : Bool} {depth : Nat} {isConst b : Bool} {ts r : List Token}
    (h : qualifiers? mayGroup depth isConst ts = some (b, r)) : r <:+ ts := by
  fun_induction qualifiers? mayGroup depth isConst ts with
  | case1 => cases h; exact List.suffix_refl _
  | case2 => cases h
  | case10 => cases h; exact List.suffix_refl _
  | case3 _ _ _ _ _ _ _ ih => exact (ih h).trans (List.suffix_cons ..)
  | case4 _ _ _ _ _ _ _ _ ih => exact (ih h).trans (List.suffix_cons ..)
  | case5 _ _ _ _ _ _ _ _ ih => exact (ih h).trans (List.suffix_cons ..)
  | case6 _ _ _ _ _ _ _ ih => exact (ih h).trans (List.suffix_cons ..)
  | case7 _ _ _ _ _ _ _ _ ih => exact (ih h).trans (List.suffix_cons ..)
  | case8 _ _ _ _ _ _ _ _ _ ih => exact (ih h).trans (List.suffix_cons ..)
  | case9 _ _ _ _ _ _ _ _ _ _ ih => exact (ih h).trans (List.suffix_cons ..)

/-- The specifier that follows an equals sign. -/
def specifierOf? (text : String) : Option Specifier :=
  if text = "0" then some .pureVirtual
  else if text = "default" then some .defaulted
  else if text = "delete" then some .deleted
  else none

def specifier : List Token → Option Specifier × List Token
  | e :: s :: ts =>
    if e.text = "=" then
      match specifierOf? s.text with
      | some spec => (some spec, ts)
      | none => (none, e :: s :: ts)
    else (none, e :: s :: ts)
  | ts => (none, ts)

theorem suffix_specifier (ts : List Token) : (specifier ts).2 <:+ ts := by
  unfold specifier
  split
  · next e s ts =>
    split
    · split
      · exact (List.suffix_cons s ts).trans (List.suffix_cons e _)
      · exact List.suffix_refl _
    · exact List.suffix_refl _
  · exact List.suffix_refl _

/-- A body, an initializer list or the end of the fragment comes next. Mirrors `opens_body`. -/
def opensBody : List Token → Bool
  | [] => true
  | t :: _ => t.text == "\x7b" || t.text == ":" || t.text == "try"

/-- The end of a declaration, through its semicolon if it has one. Mirrors `parse_tail`. -/
def tail? (ts : List Token) : Option (Tail × List Token) :=
  match qualifiers? false 0 false ts with
  | none => none
  | some (isConst, rest) =>
    let (spec, behind) := specifier rest
    match skip? ";" behind with
    | some last => some (⟨isConst, spec, true⟩, last)
    | none => if opensBody behind then some (⟨isConst, spec, false⟩, behind) else none

theorem suffix_of_tail? {ts r : List Token} {t : Tail} (h : tail? ts = some (t, r)) : r <:+ ts := by
  unfold tail? at h
  split at h
  · cases h
  · next isConst rest hq =>
    have h1 := suffix_of_qualifiers? hq
    have h2 := (suffix_specifier rest).trans h1
    simp only at h
    split at h
    · next last hs =>
      simp only [Option.some.injEq, Prod.mk.injEq] at h
      exact h.2 ▸ (suffix_of_skip? hs).1.trans h2
    · split at h
      · simp only [Option.some.injEq, Prod.mk.injEq] at h
        exact h.2 ▸ h2
      · cases h

end HeaderOutline.Declaration
