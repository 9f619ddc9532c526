import HeaderOutline.Declaration.Reader
/-!
# Default values

A default value is skipped up to the mark that ends it, a comma or the `close` of the list it stands
in. Inside round, square and curly brackets both may occur. In a template list, which a closing
angle bracket ends, angle brackets nest too; in a parameter list they do not.

Results: `suffix_skipDefault`, what is left is an end of the tokens.
-/
namespace HeaderOutline.Declaration

def isOpening (text : String) : Bool :=
  text == "(" || text == "[" || text == "\x7b"

def isClosing (text : String) : Bool :=
  text == ")" || text == "]" || text == "\x7d"

/-- What is left behind a default value, `nesting` brackets and `angles` angle brackets deep. A
round bracket that closes nothing ends it in any list. Mirrors `skip_default`. -/
def skipDefault (close : String) (nesting angles : Nat) : List Token → List Token
  | [] => []
  | t :: ts =>
    if isOpening t.text then skipDefault close (nesting + 1) angles ts
    else if isClosing t.text ∧ 0 < nesting then skipDefault close (nesting - 1) angles ts
    else if t.text = ")" then t :: ts
    else if t.text = "<" ∧ close = ">" then skipDefault close nesting (angles + 1) ts
    else if t.text = ">" ∧ 0 < angles then skipDefault close nesting (angles - 1) ts
    else if nesting = 0 ∧ angles = 0 ∧ (t.text = "," ∨ t.text = close) then t :: ts
    else skipDefault close nesting angles ts

theorem suffix_skipDefault (close : String) (nesting angles : Nat) (ts : List Token) :
    skipDefault close nesting angles ts <:+ ts := by
  fun_induction skipDefault close nesting angles ts with
  | case1 => exact List.suffix_refl _
  | case4 | case7 => exact List.suffix_refl _
  | case2 | case3 | case5 | case6 | case8 => exact List.IsSuffix.trans ‹_› (List.suffix_cons _ _)

/-- What is left behind `= value`; all of it when no equals sign comes first. -/
def skipAssigned (close : String) (ts : List Token) : List Token :=
  match skip? "=" ts with
  | some rest => skipDefault close 0 0 rest
  | none => ts

theorem suffix_skipAssigned (close : String) (ts : List Token) : skipAssigned close ts <:+ ts := by
  unfold skipAssigned
  split
  · next rest h => exact (suffix_skipDefault ..).trans (suffix_of_skip? h).1
  · exact List.suffix_refl ts

end HeaderOutline.Declaration
