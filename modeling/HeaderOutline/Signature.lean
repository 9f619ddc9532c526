import HeaderOutline.TypeExpr
/-!
# Signatures

Templates, parameters and the signatures of functions, with their written forms. The written form of
a signature is `template <typename T> type name(params) const`; `static`, `virtual` and what follows
an equals sign are left out of it.
-/
namespace HeaderOutline
open Text

/-- The names that `template <typename T, ...>` introduces. -/
structure TemplateParams where
  names : List String
  deriving DecidableEq, Repr

def TemplateParams.render (t : TemplateParams) : String :=
  "template <" ++ ", ".intercalate (t.names.map ("typename " ++ ·)) ++ ">"

/-- A parameter; its name may be left out. -/
structure Parameter where
  type : TypeExpr
  name : Option String
  deriving DecidableEq, Repr

def Parameter.render (p : Parameter) : String :=
  match p.name with
  | some name => p.type.render ++ " " ++ name
  | none => p.type.render

/-- A parameter list as it is written, without parentheses. Mirrors `assemble_param_list`. -/
def renderParams (ps : List Parameter) : String :=
  ", ".intercalate (ps.map Parameter.render)

/-- What follows the equals sign behind a signature. -/
inductive Specifier where
  /-- `= 0` -/
  | pureVirtual
  /-- `= default` -/
  | defaulted
  /-- `= delete` -/
  | deleted
  deriving DecidableEq, Repr

/-- The fields of a function, operator, constructor or destructor. Constructors, destructors and
conversion operators have no return type. -/
structure Signature where
  template : Option TemplateParams
  returnType : Option TypeExpr
  name : String
  params : List Parameter
  isConst : Bool
  isStatic : Bool
  isVirtual : Bool
  specifier : Option Specifier
  deriving DecidableEq, Repr

namespace Signature

/-- A signature with a name and parameters only. -/
def named (name : String) (params : List Parameter) : Signature :=
  ⟨none, none, name, params, false, false, false, none⟩

/-- The name begins with the word `operator`: a symbol may follow, or the type of a conversion as
in `operator int`. A longer word such as `operators` is a name like any other. Mirrors
`is_operator`. -/
def isOperator (s : Signature) : Bool :=
  match after? "operator" s.name.toList with
  | none => false
  | some rest => !rest.head?.any TypeExpr.isIdentChar

/-- The function is declared with `= 0`. -/
def isPureVirtual (s : Signature) : Bool :=
  s.specifier == some .pureVirtual

/-- A body could be written for the declaration. Mirrors `needs_body`. -/
def needsBody (s : Signature) : Bool :=
  s.specifier.isNone

/-- The return type is missing or exactly `void`. Mirrors `returns_void`. -/
def returnsVoid (s : Signature) : Bool :=
  s.returnType.all TypeExpr.isVoid

def render (s : Signature) : String :=
  (s.template.map fun t => t.render ++ " ").getD "" ++
    (s.returnType.map fun r => r.render ++ " ").getD "" ++
    s.name ++ "(" ++ renderParams s.params ++ ")" ++
    (if s.isConst then " const" else "")

end Signature

end HeaderOutline
