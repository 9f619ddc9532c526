/-!
# Physical lines

`rawLines` cuts a text after each line feed and keeps the line feeds, so nothing is lost.
`lines` drops the ends: a line feed, or a carriage return and a line feed. A carriage return that no
line feed follows belongs to its line, and a line feed at the very end starts no further line.

Results:
* `flatten_rawLines`: the raw lines make up the text.
* `length_lines`: as many lines as raw lines.
-/
namespace HeaderOutline.Text

/-- The lines of a text, each with its line feed. -/
def rawLines : List Char → List (List Char)
  | [] => []
  | c :: r =>
    if c = '\n' then [c] :: rawLines r
    else match rawLines r with
      | [] => [[c]]
      | l :: ls => (c :: l) :: ls

theorem flatten_rawLines (cs : List Char) : (rawLines cs).flatten = cs := by
  induction cs with
  | nil => rfl
  | cons c r ih =>
    rw [rawLines]
    split
    · simp [ih]
    · split
      · next h => rw [h] at ih; simp_all
      · next l ls h => rw [h] at ih; simp_all

def dropEnd (l : List Char) : List Char :=
  if l.getLast? = some '\n' then
    let body := l.dropLast
    if body.getLast? = some '\r' then body.dropLast else body
  else l

/-- The lines of a text without their ends. -/
def lines (cs : List Char) : List (List Char) :=
  (rawLines cs).map dropEnd

theorem length_lines (cs : List Char) : (lines cs).length = (rawLines cs).length :=
  List.length_map ..

end HeaderOutline.Text
