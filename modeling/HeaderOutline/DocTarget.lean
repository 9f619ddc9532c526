import HeaderOutline.Event
/-!
# Documentation targets

The constructs that a documentation comment belongs to, each with the line it begins on: classes,
enums, functions, constructors and destructors, whether they have a body or not.
-/
namespace HeaderOutline

/-- What a comment documents, with what it has to say of it. -/
inductive DocSubject where
  | aClass
  | anEnum
  | function (returnsValue : Bool) (params : List String)
  | constructor (params : List String)
  | destructor
  deriving DecidableEq, Repr

namespace DocSubject

def params : DocSubject → List String
  | function _ ps | constructor ps => ps
  | aClass | anEnum | destructor => []

def returnsValue : DocSubject → Bool
  | function r _ => r
  | aClass | anEnum | constructor _ | destructor => false

/-- The subject that a function is. Only a function that returns `void` returns no value; parameters
without a name are not documented. Mirrors `push_function`. -/
def ofSignature (s : Signature) : DocSubject :=
  function (!s.returnType.any TypeExpr.isVoid) (s.params.filterMap (·.name))

/-- The subject that an event reports. -/
def ofEvent? : Event → Option DocSubject
  | .classHead _ => some aClass
  | .enum _ => some anEnum
  | .functionDecl s | .functionDef s => some (ofSignature s)
  | .constructorDecl _ ps | .constructorDef _ ps => some (constructor (ps.filterMap (·.name)))
  | .destructorDecl _ | .destructorDef _ => some destructor
  | _ => none

end DocSubject

/-- A line with what begins on it. -/
structure DocTarget where
  line : Nat
  subject : DocSubject
  deriving DecidableEq, Repr

namespace DocTarget

/-- The targets of a header whose reading made these callbacks. Mirrors `DocTargets`. -/
def ofCallbacks (cs : List Callback) : List DocTarget :=
  cs.filterMap fun c => (DocSubject.ofEvent? c.event).map (⟨c.line, ·⟩)

end DocTarget

end HeaderOutline
