/-!
# Splitting

`split c` cuts a text at every occurrence of a character and drops that character.

Result: `split_ne_nil`, there is always a piece.
-/
namespace HeaderOutline.Text

/-- The pieces of a text between the occurrences of `mark`. -/
def split (mark : Char) : List Char → List (List Char)
  | [] => [[]]
  | c :: r =>
    if c = mark then [] :: split mark r
    else match split mark r with
      | [] => [[c]]
      | p :: ps => (c :: p) :: ps

theorem split_ne_nil (mark : Char) (cs : List Char) : split mark cs ≠ [] := by
  cases cs with
  | nil => simp [split]
  | cons c r =>
    rw [split]
    split
    · simp
    · split <;> simp

end HeaderOutline.Text
