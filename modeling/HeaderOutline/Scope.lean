import HeaderOutline.Access
import HeaderOutline.Signature
/-!
# Scopes

A frame is pushed when the head of a namespace, class, function or linkage block is read, and it is
marked as opened when its brace arrives. Braces that belong to no head push a skip frame, which is
open from the start.

The stack holds the innermost frame first. Its context, the kind of the innermost frame that is no
linkage block, decides which rules apply. Linkage blocks are transparent: what is declared inside
belongs to the scope around them.
-/
namespace HeaderOutline

/-- The body of a class, from its head on. `access` applies to the next member. -/
structure ClassBody where
  name : String
  key : ClassKey
  template : Option TemplateParams
  access : AccessLevel
  opened : Bool
  deriving DecidableEq, Repr

/-- A class whose head has been read. -/
def ClassBody.ofHead (name : String) (key : ClassKey) (template : Option TemplateParams) :
    ClassBody :=
  ⟨name, key, template, key.defaultAccess, false⟩

/-- An open or announced scope. Mirrors `Scope`. -/
inductive Frame where
  /-- A namespace; the name is empty when it has none. -/
  | nameSpace (name : String) (opened : Bool)
  | classBody (body : ClassBody)
  /-- The body of a function, constructor or destructor. -/
  | functionBody (name : String) (opened : Bool)
  /-- A braced `extern` block. -/
  | linkage (opened : Bool)
  /-- Braces without a head. -/
  | skip
  deriving DecidableEq, Repr

/-- The sort of a frame. A class with a template head is of a sort of its own. -/
inductive FrameKind where
  | nameSpace
  | classBody
  | templateClass
  | functionBody
  | linkage
  | skip
  deriving DecidableEq, Repr

namespace FrameKind

def describe : FrameKind → String
  | nameSpace => "namespace"
  | classBody => "class"
  | templateClass => "template class"
  | functionBody => "function"
  | linkage => "linkage"
  | skip => "skip"

end FrameKind

namespace Frame

def kind : Frame → FrameKind
  | nameSpace .. => .nameSpace
  | classBody c => if c.template.isSome then .templateClass else .classBody
  | functionBody .. => .functionBody
  | linkage .. => .linkage
  | skip => .skip

/-- The name of the frame; linkage blocks and skipped braces have none. -/
def name? : Frame → Option String
  | nameSpace name _ => some name
  | classBody c => some c.name
  | functionBody name _ => some name
  | linkage _ => none
  | skip => none

def class? : Frame → Option ClassBody
  | classBody c => some c
  | _ => none

/-- The access of the next member; only classes have one. -/
def access? (f : Frame) : Option AccessLevel :=
  f.class?.map (·.access)

def isOpened : Frame → Bool
  | nameSpace _ opened => opened
  | classBody c => c.opened
  | functionBody _ opened => opened
  | linkage opened => opened
  | skip => true

/-- The frame once its opening brace has been read. -/
def opening : Frame → Frame
  | nameSpace name _ => nameSpace name true
  | classBody c => classBody { c with opened := true }
  | functionBody name _ => functionBody name true
  | linkage _ => linkage true
  | skip => skip

theorem isOpened_opening (f : Frame) : f.opening.isOpened = true := by
  cases f <;> rfl

/-- The part of a qualified name that the frame gives: the name of a class or of a namespace that
has one. -/
def qualifier? : Frame → Option String
  | nameSpace name _ => if name.isEmpty then none else some name
  | classBody c => some c.name
  | _ => none

end Frame

/-- What the innermost scope is made of. -/
inductive Context where
  | nameSpace
  | classBody
  | functionBody
  | skip
  deriving DecidableEq, Repr

/-- The open scopes, innermost first. -/
abbrev ScopeStack := List Frame

namespace ScopeStack

/-- The context of the innermost frame that is no linkage block. Mirrors `current_context`. -/
def context : ScopeStack → Context
  | [] => .nameSpace
  | .linkage _ :: fs => context fs
  | .nameSpace .. :: _ => .nameSpace
  | .classBody _ :: _ => .classBody
  | .functionBody .. :: _ => .functionBody
  | .skip :: _ => .skip

def openTop : ScopeStack → ScopeStack
  | [] => []
  | f :: fs => f.opening :: fs

/-- The stack with the access of its top frame set, if that is a class. -/
def setAccess (level : AccessLevel) : ScopeStack → ScopeStack
  | .classBody c :: fs => .classBody { c with access := level } :: fs
  | fs => fs

def topClass? (fs : ScopeStack) : Option ClassBody :=
  fs.head?.bind Frame.class?

def classes (fs : ScopeStack) : List ClassBody :=
  fs.filterMap Frame.class?

/-- Mirrors `innermost_class`. -/
def innermostClass? (fs : ScopeStack) : Option ClassBody :=
  (classes fs).head?

/-- Mirrors `is_inside_template_class`. -/
def insideTemplate (fs : ScopeStack) : Bool :=
  (classes fs).any (·.template.isSome)

/-- Every enclosing class grants public access at this point. Mirrors `is_publicly_reachable`. -/
def isPublic (fs : ScopeStack) : Bool :=
  (classes fs).all (·.access == .isPublic)

/-- The names of the enclosing namespaces and classes, outermost first. Mirrors `qualifier_path`. -/
def path (fs : ScopeStack) : List String :=
  (fs.filterMap Frame.qualifier?).reverse

end ScopeStack

end HeaderOutline
