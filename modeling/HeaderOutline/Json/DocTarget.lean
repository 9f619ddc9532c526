import HeaderOutline.DocTarget
import HeaderOutline.Json
/-!
# Documentation targets in JSON

A target is one object: its line, the kind of its subject, and what that kind has to say. The kind
is a word or, when it is read, the number of the word in the list of all kinds.
-/
namespace HeaderOutline

namespace DocSubject

def kinds : List String :=
  ["class", "enum", "function", "constructor", "destructor"]

/-- The fields of a subject; the first tells its kind. -/
def toFields : DocSubject → List (String × Json)
  | aClass => [("kind", .text "class")]
  | anEnum => [("kind", .text "enum")]
  | function returnsValue params =>
    [("kind", .text "function"), ("returns_value", .bool returnsValue), ("params", .texts params)]
  | constructor params => [("kind", .text "constructor"), ("params", .texts params)]
  | destructor => [("kind", .text "destructor")]

/-- The word of a kind, which may be given by its number. -/
def kind? : Json → Option String
  | .text w => some w
  | j => j.natural?.bind (kinds[·]?)

def ofFields? (fields : List (String × Json)) : Option DocSubject := do
  match ← Json.required kind? "kind" fields with
  | "class" => some aClass
  | "enum" => some anEnum
  | "function" =>
    let returnsValue ← Json.required Json.bool? "returns_value" fields
    let params ← Json.required Json.texts? "params" fields
    some (function returnsValue params)
  | "constructor" => (Json.required Json.texts? "params" fields).map constructor
  | "destructor" => some destructor
  | _ => none

end DocSubject

namespace DocTarget

def toJson (t : DocTarget) : Json :=
  .object (("line", .natural t.line) :: t.subject.toFields)

def ofJson? : Json → Option DocTarget
  | .object fields => do
    let line ← Json.required Json.natural? "line" fields
    let subject ← DocSubject.ofFields? fields
    some ⟨line, subject⟩
  | _ => none

end DocTarget

end HeaderOutline
