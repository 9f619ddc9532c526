import HeaderOutline.Json
import HeaderOutline.Outline
/-!
# Words in JSON

Values that are written as a single word. A word may also be given as the only key of an object
whose value is null.

Results: every value reads back.
-/
namespace HeaderOutline

/-- The word of a value: a text, or the only key of an object whose value is null. -/
def Json.word? : Json → Option String
  | .text w => some w
  | .object [(w, .null)] => some w
  | _ => none

namespace AccessLevel

def toJson (a : AccessLevel) : Json :=
  .text a.keyword

def ofJson? (j : Json) : Option AccessLevel :=
  j.word?.bind ofKeyword?

theorem ofJson?_toJson (a : AccessLevel) : ofJson? a.toJson = some a :=
  ofKeyword?_eq_some.mpr rfl

end AccessLevel

namespace ClassKey

def toJson (k : ClassKey) : Json :=
  .text k.keyword

def ofJson? (j : Json) : Option ClassKey :=
  j.word?.bind ofKeyword?

theorem ofJson?_toJson (k : ClassKey) : ofJson? k.toJson = some k :=
  ofKeyword?_eq_some.mpr rfl

end ClassKey

namespace FunctionKind

def word : FunctionKind → String
  | function => "function"
  | constructor => "constructor"
  | destructor => "destructor"

def ofWord? (w : String) : Option FunctionKind :=
  [function, constructor, destructor].find? (·.word == w)

def toJson (k : FunctionKind) : Json :=
  .text k.word

def ofJson? (j : Json) : Option FunctionKind :=
  j.word?.bind ofWord?

theorem ofJson?_toJson (k : FunctionKind) : ofJson? k.toJson = some k := by
  cases k <;> decide

end FunctionKind

namespace Specifier

def word : Specifier → String
  | pureVirtual => "pure_virtual"
  | defaulted => "defaulted"
  | deleted => "deleted"

def ofWord? (w : String) : Option Specifier :=
  [pureVirtual, defaulted, deleted].find? (·.word == w)

def toJson (s : Specifier) : Json :=
  .text s.word

def ofJson? (j : Json) : Option Specifier :=
  j.word?.bind ofWord?

theorem ofJson?_toJson (s : Specifier) : ofJson? s.toJson = some s := by
  cases s <;> decide

end Specifier

namespace FrameKind

def word : FrameKind → String
  | nameSpace => "namespace"
  | classBody => "class"
  | templateClass => "template_class"
  | functionBody => "function"
  | linkage => "linkage"
  | skip => "skip"

def ofWord? (w : String) : Option FrameKind :=
  [nameSpace, classBody, templateClass, functionBody, linkage, skip].find? (·.word == w)

def toJson (k : FrameKind) : Json :=
  .text k.word

def ofJson? (j : Json) : Option FrameKind :=
  j.word?.bind ofWord?

theorem ofJson?_toJson (k : FrameKind) : ofJson? k.toJson = some k := by
  cases k <;> decide

end FrameKind

end HeaderOutline
