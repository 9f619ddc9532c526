import HeaderOutline.Text.Word
/-!
# Type expressions

A type such as `const std::map<K, std::vector<V> >&` is a sequence of fragments. A fragment is a
piece of text or a nested group, and a group stands for one template argument. The written form puts
the commas between the groups, so they are not kept.

`render` writes a type. A comma and a blank part a group from what stands before it, unless that is
nothing or an opening angle bracket. Two pieces are parted by a blank where they would otherwise run
together: after a comma, between two words, and between two closing angle brackets.
-/
namespace HeaderOutline

/-- A sequence of pieces of text and nested groups. -/
inductive TypeExpr where
  | nil
  | token (text : String) (rest : TypeExpr)
  | group (inner rest : TypeExpr)
  deriving DecidableEq, Repr, Inhabited

namespace TypeExpr
open Text

/-- The fragments of the first type, then those of the second. -/
def append : TypeExpr → TypeExpr → TypeExpr
  | nil, b => b
  | token t r, b => token t (append r b)
  | group g r, b => group g (append r b)

/-- A flat type. -/
def ofTokens (texts : List String) : TypeExpr :=
  texts.foldr token nil

/-- One group for each argument. -/
def ofGroups (args : List TypeExpr) : TypeExpr :=
  args.foldr group nil

def isEmpty : TypeExpr → Bool
  | nil => true
  | _ => false

/-- The type is `void` and nothing else. -/
def isVoid : TypeExpr → Bool
  | token t nil => t == "void"
  | _ => false

/-! ## Written form -/

/-- A character of an identifier, of any script. -/
def isIdentChar (c : Char) : Bool :=
  isAlphanumeric c || c == '_'

/-- A blank has to part what is written already from the next piece. Mirrors `needs_space`. -/
def needsBlank (written next : List Char) : Bool :=
  match written.getLast?, next.head? with
  | some p, some n => p == ',' || (isIdentChar p && isIdentChar n) || (p == '>' && n == '>')
  | _, _ => false

/-- What stands between the text written already and a group. -/
def groupMark (written : List Char) : List Char :=
  if written.isEmpty || written.getLast? == some '<' then [] else [',', ' ']

/-- The text written already, followed by the fragments. Mirrors the loop in `assemble_type`. -/
def renderAfter (written : List Char) : TypeExpr → List Char
  | nil => written
  | token t rest =>
    renderAfter (written ++ (if needsBlank written t.toList then [' '] else []) ++ t.toList) rest
  | group inner rest =>
    renderAfter (written ++ groupMark written ++ renderAfter [] inner) rest

def render (e : TypeExpr) : String :=
  String.ofList (renderAfter [] e)

end TypeExpr

end HeaderOutline
