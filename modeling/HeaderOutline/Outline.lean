import HeaderOutline.Event
/-!
# Outlines

The outline of a header is the flat record of all that was reported while it was read: macros,
namespaces, classes, enums, and functions with constructors and destructors among them. Each item
keeps its line and the names of the namespaces and classes around it, outermost first.
-/
namespace HeaderOutline

structure MacroItem where
  definition : MacroDef
  line : Nat
  deriving DecidableEq, Repr

structure NamespaceItem where
  name : String
  path : List String
  line : Nat
  deriving DecidableEq, Repr

def NamespaceItem.isAnonymous (n : NamespaceItem) : Bool :=
  n.name.isEmpty

/-- A name behind the names of the scopes around it. Mirrors `qualify`. -/
def qualify (path : List String) (name : String) : String :=
  "::".intercalate (path ++ [name])

/-- A class of an outline. A class that is nested in another one keeps the access that applied
there. -/
structure ClassItem where
  name : String
  qualifiedName : String
  key : ClassKey
  template : Option TemplateParams
  declaredAccess : Option AccessLevel
  line : Nat
  deriving DecidableEq, Repr

namespace ClassItem

def isTemplate (c : ClassItem) : Bool :=
  c.template.isSome

def isStruct (c : ClassItem) : Bool :=
  c.key == .isStruct

end ClassItem

structure EnumItem where
  decl : EnumDecl
  path : List String
  line : Nat
  deriving DecidableEq, Repr

/-- What a function of an outline is. Operators are functions. -/
inductive FunctionKind where
  | function
  | constructor
  | destructor
  deriving DecidableEq, Repr

/-- A function, constructor or destructor of an outline. `access` is the access of the innermost
class around it, if there is one. -/
structure FunctionItem where
  kind : FunctionKind
  signature : Signature
  path : List String
  isDefinition : Bool
  access : Option AccessLevel
  inTemplate : Bool
  line : Nat
  deriving DecidableEq, Repr

namespace FunctionItem

/-- The name behind the names of the scopes around it. -/
def qualifiedName (f : FunctionItem) : String :=
  qualify f.path f.signature.name

def isMethod (f : FunctionItem) : Bool :=
  f.access.isSome

end FunctionItem

/-- What a header holds, in the order of its text. `filePath` is where it was read from. -/
structure Outline where
  filePath : Option String
  macros : List MacroItem
  namespaces : List NamespaceItem
  classes : List ClassItem
  enums : List EnumItem
  functions : List FunctionItem
  deriving DecidableEq, Repr

namespace Outline

/-- The outline of a header that holds nothing. -/
def empty : Outline :=
  ⟨none, [], [], [], [], []⟩

def size (o : Outline) : Nat :=
  o.macros.length + o.namespaces.length + o.classes.length + o.enums.length + o.functions.length

/-- The first class of a qualified name. -/
def class? (o : Outline) (qualifiedName : String) : Option ClassItem :=
  o.classes.find? (·.qualifiedName == qualifiedName)

/-- The first function of a qualified name. -/
def function? (o : Outline) (qualifiedName : String) : Option FunctionItem :=
  o.functions.find? (·.qualifiedName == qualifiedName)

def ofKind (o : Outline) (kind : FunctionKind) : List FunctionItem :=
  o.functions.filter (·.kind == kind)

def declarations (o : Outline) : List FunctionItem :=
  o.functions.filter (!·.isDefinition)

def definitions (o : Outline) : List FunctionItem :=
  o.functions.filter (·.isDefinition)

end Outline

end HeaderOutline
