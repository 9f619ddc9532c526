import HeaderOutline.Text.Blank
import HeaderOutline.Text.Lines
import HeaderOutline.Text.Quote
/-!
# Source lines

The lines of a header that are left once comments are stripped, every line is trimmed, and lines
without text are dropped. Each keeps its number in the file, counted from 1.

Comments are stripped by one pass over the characters. A line comment ends its line. A block comment
may run over several lines and leaves one blank, so it still separates what stands around it; one
that is never closed takes the rest of the file. Inside quotes neither begins a comment, and a
backslash protects the next character. A quote that is not closed ends with its line.
-/
namespace HeaderOutline

/-- A line of text with its number in the file. -/
structure SourceLine where
  number : Nat
  text : List Char
  deriving DecidableEq, Repr

namespace SourceLine
open Text

/-- Where the stripping of comments stands within a line. -/
inductive Mode where
  /-- Outside comments and quotes. -/
  | code
  /-- Inside a literal that `quote` opened. -/
  | quoted (quote : Char)
  /-- Inside a block comment. -/
  | comment
  deriving DecidableEq, Repr

/-- The line without its comments, and the mode at its end. Mirrors `strip_line`. -/
def strip : Mode → List Char → List Char × Mode
  | m, [] => ([], m)
  | .comment, '*' :: '/' :: r =>
    let (kept, last) := strip .code r
    (' ' :: kept, last)
  | .comment, _ :: r => strip .comment r
  | .quoted q, '\\' :: c :: r =>
    let (kept, last) := strip (.quoted q) r
    ('\\' :: c :: kept, last)
  | .quoted q, c :: r =>
    let (kept, last) := strip (if c = q then .code else .quoted q) r
    (c :: kept, last)
  | .code, '/' :: '/' :: _ => ([], .code)
  | .code, '/' :: '*' :: r => strip .comment r
  | .code, c :: r =>
    let (kept, last) := strip (if isQuote c then .quoted c else .code) r
    (c :: kept, last)

/-- The mode in which the next line begins: only a block comment runs on. -/
def Mode.nextLine : Mode → Mode
  | .comment => .comment
  | _ => .code

/-- The lines with text among physical lines that begin at number `n` in mode `m`. -/
def ofLines (m : Mode) (n : Nat) : List (List Char) → List SourceLine
  | [] => []
  | l :: ls =>
    let (kept, last) := strip m l
    let text := trim kept
    let later := ofLines last.nextLine (n + 1) ls
    if text.isEmpty then later else ⟨n, text⟩ :: later

/-- The lines of a header. Mirrors `preprocess`. -/
def ofSource (source : List Char) : List SourceLine :=
  ofLines .code 1 (lines source)

end SourceLine

end HeaderOutline
