import HeaderOutline.Access
import HeaderOutline.Declaration.Callable
import HeaderOutline.Declaration.ClassHead
/-!
# Constructs

What a rule recognizes at the start of a fragment.
-/
namespace HeaderOutline
open Declaration

/-- What a rule recognizes. -/
inductive Construct where
  /-- `#define`; the value may go on in later lines. -/
  | define (name : String) (value : List Char)
  /-- Any other line that begins with `#`; it is passed over. -/
  | directive
  /-- An access label. -/
  | access (level : AccessLevel)
  /-- `extern` and a string; `block` when a brace follows at once. -/
  | linkage (block : Bool)
  /-- A namespace head; the name is empty when it has none. -/
  | nameSpace (name : String)
  | classHead (head : ClassHead)
  /-- The word `enum`; the body is read when all its lines are there. -/
  | enumHead
  | function (signature : Signature) (terminated : Bool)
  | constructor (item : Constructor) (terminated : Bool)
  | destructor (name : String) (terminated : Bool)
  | openBrace
  | closeBrace
  /-- A statement that a semicolon ends; it is passed over. -/
  | statement
  deriving DecidableEq, Repr

end HeaderOutline
