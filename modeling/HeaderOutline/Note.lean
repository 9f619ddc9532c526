import HeaderOutline.Rule
/-!
# Notes

What is logged while a header is read, beside the events: which rules matched, what became of text
that none matched, and how the reading ended.
-/
namespace HeaderOutline

/-- The weight of a log record. -/
inductive LogLevel where
  | trace
  | debug
  | warn
  deriving DecidableEq, Repr

inductive Note where
  | matched (line : Nat) (rule : Rule)
  /-- Text behind a match waits to be read next. -/
  | requeued (line : Nat)
  /-- No rule matched, and the next line is joined on. -/
  | merged (line : Nat)
  /-- An enum without a body is passed over. -/
  | enumSkipped (line : Nat)
  /-- A scope whose brace never came is given up. -/
  | dropped (line : Nat) (kind : FrameKind)
  | enumDiscarded (line : Nat)
  | textDiscarded (line : Nat) (text : String)
  | leftOpen (count : Nat) (innermost : FrameKind)
  | finished (constructs merges discarded : Nat)
  deriving DecidableEq, Repr

namespace Note

def level : Note → LogLevel
  | matched .. | requeued _ | merged _ | enumSkipped _ | dropped .. => .trace
  | enumDiscarded _ | textDiscarded .. | leftOpen .. => .warn
  | finished .. => .debug

def kindWord : FrameKind → String
  | .nameSpace => "Namespace"
  | .classBody => "Class"
  | .templateClass => "TemplateClass"
  | .functionBody => "Function"
  | .linkage => "Linkage"
  | .skip => "Skip"

/-- A number in front of a message. -/
def atLine (line : Nat) (text : String) : String :=
  "Line " ++ toString line ++ ": " ++ text

/-- The text of the note. The time that a reading took is not measured and stands as a mark. -/
def message : Note → String
  | matched line rule => atLine line (rule.describe ++ " rule matched")
  | requeued line => atLine line "requeued remainder"
  | merged line => atLine line "no rule matched, merged with next line"
  | enumSkipped line => atLine line "skipping enum statement without a body"
  | dropped line kind => atLine line ("dropping unopened " ++ kind.describe ++ " scope")
  | enumDiscarded line => atLine line "discarding unterminated enum at end of input"
  | textDiscarded line text =>
    atLine line ("discarding unmatched text at end of input: " ++ text)
  | leftOpen count innermost =>
    "Input ended with " ++ toString count ++ " open scope(s), innermost Some(" ++
      kindWord innermost ++ ")"
  | finished constructs merges discarded =>
    "Parsed " ++ toString constructs ++ " construct(s) in <time> (" ++ toString merges ++
      " merge(s), " ++ toString discarded ++ " discarded)"

end Note

end HeaderOutline
