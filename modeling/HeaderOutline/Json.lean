/-!
# JSON values

The tree that data is written as and read from. A number is kept as it is spelled: an integer,
shifted right by a number of decimal places.

A record is an object with one field for each of its keys, in any order; fields of other keys are
passed over. It may also be given as the list of its values in the order of the keys. Reading gives
nothing when a field is missing or of another sort.

Result: `natural?_natural`, a number reads back if it fits in a word of 64 bits.
-/
namespace HeaderOutline

inductive Json where
  | null
  | bool (value : Bool)
  /-- The number `mantissa · 10 ^ -places`. -/
  | number (mantissa : Int) (places : Nat)
  | text (value : String)
  | list (items : List Json)
  | object (fields : List (String × Json))
  deriving Inhabited, Repr

namespace Json

/-- The integer that a natural number is written as. -/
def natural (n : Nat) : Json :=
  number n 0

def texts (ts : List String) : Json :=
  list (ts.map text)

def optional {α : Type} (write : α → Json) : Option α → Json
  | none => null
  | some a => write a

/-! ## Reading -/

def text? : Json → Option String
  | text t => some t
  | _ => none

def bool? : Json → Option Bool
  | bool b => some b
  | _ => none

/-- A natural number of at most 64 bits that is spelled as an integer. -/
def natural? : Json → Option Nat
  | number (.ofNat n) 0 => if n < UInt64.size then some n else none
  | _ => none

/-- All results, if there is one for every element. -/
def all? {α : Type} (read : Json → Option α) : List Json → Option (List α)
  | [] => some []
  | j :: js => do
    let a ← read j
    let as ← all? read js
    some (a :: as)

def list? {α : Type} (read : Json → Option α) : Json → Option (List α)
  | list js => all? read js
  | _ => none

def texts? : Json → Option (List String) :=
  list? text?

def optional? {α : Type} (read : Json → Option α) : Json → Option (Option α)
  | null => some none
  | j => (read j).map some

theorem natural?_natural {n : Nat} (h : n < UInt64.size) : natural? (natural n) = some n :=
  if_pos h

/-! ## Records -/

/-- The fields of a record. -/
def record? (keys : List String) : Json → Option (List (String × Json))
  | object fields => some fields
  | list values => if values.length = keys.length then some (keys.zip values) else none
  | _ => none

/-- The field of a key, which must be there. -/
def required {α : Type} (read : Json → Option α) (key : String) (fields : List (String × Json)) :
    Option α :=
  (fields.lookup key).bind read

/-- The field of a key, which may be missing or null. -/
def optionalField {α : Type} (read : Json → Option α) (key : String)
    (fields : List (String × Json)) : Option (Option α) :=
  match fields.lookup key with
  | none => some none
  | some j => optional? read j

/-- The field of a key, or `fallback` if there is none. -/
def fieldOr {α : Type} (fallback : α) (read : Json → Option α) (key : String)
    (fields : List (String × Json)) : Option α :=
  match fields.lookup key with
  | none => some fallback
  | some j => read j

end Json

end HeaderOutline
