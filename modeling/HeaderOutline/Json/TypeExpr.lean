import HeaderOutline.Json
import HeaderOutline.TypeExpr
/-!
# Type expressions in JSON

A type is a record of its fragments. A fragment is an object with a single key, which tells a piece
of text from a group.
-/
namespace HeaderOutline.TypeExpr

def toFragments : TypeExpr → List Json
  | nil => []
  | token t rest => .object [("Token", .text t)] :: toFragments rest
  | group inner rest =>
    .object [("Group", .object [("fragments", .list (toFragments inner))])] :: toFragments rest

def toJson (e : TypeExpr) : Json :=
  .object [("fragments", .list (toFragments e))]

mutual

def ofJson? : Json → Option TypeExpr
  | .object fields => ofFields? fields
  | .list [fragments] => ofList? fragments
  | _ => none

def ofFields? : List (String × Json) → Option TypeExpr
  | [] => none
  | (key, value) :: rest => if key = "fragments" then ofList? value else ofFields? rest

def ofList? : Json → Option TypeExpr
  | .list fragments => ofFragments? fragments
  | _ => none

def ofFragments? : List Json → Option TypeExpr
  | [] => some nil
  | fragment :: rest =>
    match fragment with
    | .object [("Token", .text t)] => (ofFragments? rest).map (token t)
    | .object [("Group", inner)] =>
      (ofJson? inner).bind fun g => (ofFragments? rest).map (group g)
    | _ => none

end

end HeaderOutline.TypeExpr
