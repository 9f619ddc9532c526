import HeaderOutline.DocTarget
import HeaderOutline.Text.Blank
import HeaderOutline.Text.Lines
import HeaderOutline.Text.Word
/-!
# Documentation comments

A comment is written above every line with a target, unless the line is documented already: it
begins with a documentation comment, it lies inside one, or the last line with text above it ends
one. The lines of the comment begin with the blanks that the documented line begins with. Of several
targets on a line the first counts.

A documentation comment is a run of lines that begin with three slashes, or a block that a slash and
two asterisks open and the next closing mark behind them ends.

Result: `flatten_source`, the lines that are kept make up the text.
-/
namespace HeaderOutline.DocComment
open Text

/-- Mirrors `write_doc`. -/
def content (s : DocSubject) : List String :=
  ["<summary>", "</summary>"] ++
    s.params.map (fun p => "<param name=\x22" ++ p ++ "\x22></param>") ++
    if s.returnsValue then ["<returns></returns>"] else []

def block (indent : List Char) (s : DocSubject) : List (List Char) :=
  (content s).map fun line => indent ++ "/// ".toList ++ line.toList ++ ['\n']

/-- The text holds the mark that closes a block. -/
def closesBlock : List Char → Bool
  | '*' :: '/' :: _ => true
  | _ :: r => closesBlock r
  | [] => false

/-- What the lines so far mean for the next one. -/
inductive Coverage where
  /-- It is not documented. -/
  | bare
  /-- A comment ends right above it. -/
  | documented
  /-- It lies inside a comment. -/
  | inside
  deriving DecidableEq, Repr

/-- The coverage below a trimmed line. A line without text changes nothing. -/
def Coverage.below (above : Coverage) (line : List Char) : Coverage :=
  if line.isEmpty then above
  else if above = inside then if closesBlock line then documented else inside
  else if (after? "///" line).isSome then documented
  else match after? "/**" line with
    | some rest => if closesBlock rest then documented else inside
    | none => bare

/-- The trimmed line begins with a documentation comment. -/
def startsComment (line : List Char) : Bool :=
  (after? "///" line).isSome || (after? "/**" line).isSome

/-- The comment that belongs above line `n`. -/
def above (targets : List DocTarget) (n : Nat) (coverage : Coverage) (line : List Char) :
    List (List Char) :=
  match targets.find? (·.line == n) with
  | none => []
  | some t =>
    if coverage = .bare ∧ !startsComment (trim line) then block (line.takeWhile isBlank) t.subject
    else []

structure Line where
  text : List Char
  /-- It was not there before. -/
  isNew : Bool
  deriving DecidableEq, Repr

/-- The lines from number `n` on with the comments that belong above them. -/
def insertFrom (targets : List DocTarget) (n : Nat) (coverage : Coverage) :
    List (List Char) → List Line
  | [] => []
  | l :: ls =>
    (above targets n coverage l).map (⟨·, true⟩) ++
      ⟨l, false⟩ :: insertFrom targets (n + 1) (coverage.below (trim l)) ls

/-- The lines of a text with the comments that belong above them. -/
def insertLines (source : String) (targets : List DocTarget) : List Line :=
  insertFrom targets 1 .bare (rawLines source.toList)

/-- A text with a comment above every line that has a target and is not documented yet. Mirrors
`insert_doc_comments`. -/
def insert (source : String) (targets : List DocTarget) : String :=
  String.ofList ((insertLines source targets).flatMap (·.text))

theorem old_insertFrom (targets : List DocTarget) (n : Nat) (coverage : Coverage)
    (ls : List (List Char)) :
    ((insertFrom targets n coverage ls).filter (!·.isNew)).map (·.text) = ls := by
  induction ls generalizing n coverage with
  | nil => rfl
  | cons l ls ih =>
    have h : ((above targets n coverage l).map fun t => Line.mk t true).filter (!·.isNew) = [] := by
      simp [List.filter_eq_nil_iff]
    simp only [insertFrom, List.filter_append, h, List.nil_append]
    simp [ih]

theorem flatten_source (source : String) (targets : List DocTarget) :
    (((insertLines source targets).filter (!·.isNew)).map (·.text)).flatten = source.toList := by
  rw [insertLines, old_insertFrom, flatten_rawLines]

end HeaderOutline.DocComment
