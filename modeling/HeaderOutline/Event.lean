import HeaderOutline.Declaration.ClassHead
import HeaderOutline.EnumDecl
import HeaderOutline.Scope
/-!
# Events

What is reported while a header is read. Each event goes out with the number of the line it belongs
to and the scopes as they stand at that moment. The head of a namespace, class or function is
reported before its scope is pushed, a start after its brace is read, and an end before its scope is
popped.
-/
namespace HeaderOutline

/-- A macro with its continuation lines joined. -/
structure MacroDef where
  name : String
  value : String
  deriving DecidableEq, Repr

/-- What is reported. A line begins and ends around all constructs that begin in it. -/
inductive Event where
  | parseStart
  | parseEnd
  | lineStart (text : String)
  | lineEnd (text : String)
  | define (item : MacroDef)
  | nameSpace (name : String)
  | nameSpaceStart (name : String)
  | nameSpaceEnd (name : String)
  | classHead (head : Declaration.ClassHead)
  | classStart (name : String)
  | classEnd (name : String)
  | enum (decl : EnumDecl)
  | functionDecl (signature : Signature)
  | functionDef (signature : Signature)
  | constructorDecl (name : String) (params : List Parameter)
  | constructorDef (name : String) (params : List Parameter)
  | destructorDecl (name : String)
  | destructorDef (name : String)
  deriving DecidableEq, Repr

/-- An event with its line and the scopes around it. The line is 0 before the first one. -/
structure Callback where
  event : Event
  line : Nat
  scopes : ScopeStack
  deriving DecidableEq, Repr

end HeaderOutline
