import HeaderOutline.Outline
/-!
# Collecting an outline

Which item a callback adds to an outline. The path and the access of an item are read off the scopes
that the callback carries, so the head of a class is filed under the scopes around the class.

Results: `ofCallbacks_append`, what is collected of two runs of callbacks is collected of each; and
`size_ofCallbacks`, every construct adds exactly one item.
-/
namespace HeaderOutline

namespace Callback

def macro? (c : Callback) : Option MacroItem :=
  match c.event with
  | .define item => some ⟨item, c.line⟩
  | _ => none

def namespace? (c : Callback) : Option NamespaceItem :=
  match c.event with
  | .nameSpace name => some ⟨name, c.scopes.path, c.line⟩
  | _ => none

/-- The access that applies to a member at this point. -/
def access? (c : Callback) : Option AccessLevel :=
  c.scopes.innermostClass?.map (·.access)

def class? (c : Callback) : Option ClassItem :=
  match c.event with
  | .classHead h =>
    some ⟨h.name, qualify c.scopes.path h.name, h.key, h.template, c.access?, c.line⟩
  | _ => none

def enum? (c : Callback) : Option EnumItem :=
  match c.event with
  | .enum decl => some ⟨decl, c.scopes.path, c.line⟩
  | _ => none

/-- The item for a function that is reported here. Mirrors `push_function`. -/
def functionItem (c : Callback) (kind : FunctionKind) (signature : Signature)
    (isDefinition : Bool) : FunctionItem :=
  ⟨kind, signature, c.scopes.path, isDefinition, c.access?, c.scopes.insideTemplate, c.line⟩

/-- The function that a callback reports. Constructors keep a name and parameters, destructors only
a name. -/
def function? (c : Callback) : Option FunctionItem :=
  match c.event with
  | .functionDecl s => some (c.functionItem .function s false)
  | .functionDef s => some (c.functionItem .function s true)
  | .constructorDecl name ps => some (c.functionItem .constructor (.named name ps) false)
  | .constructorDef name ps => some (c.functionItem .constructor (.named name ps) true)
  | .destructorDecl name => some (c.functionItem .destructor (.named name []) false)
  | .destructorDef name => some (c.functionItem .destructor (.named name []) true)
  | _ => none

end Callback

/-- The event reports a construct, and not only the course of the reading. -/
def Event.isConstruct : Event → Bool
  | .define _ | .nameSpace _ | .classHead _ | .enum _ => true
  | .functionDecl _ | .functionDef _ => true
  | .constructorDecl .. | .constructorDef .. => true
  | .destructorDecl _ | .destructorDef _ => true
  | .parseStart | .parseEnd | .lineStart _ | .lineEnd _ => false
  | .nameSpaceStart _ | .nameSpaceEnd _ | .classStart _ | .classEnd _ => false

namespace Outline

/-- The outline that callbacks make up. Mirrors `HeaderCollector`. -/
def ofCallbacks (cs : List Callback) : Outline :=
  ⟨none, cs.filterMap (·.macro?), cs.filterMap (·.namespace?), cs.filterMap (·.class?),
    cs.filterMap (·.enum?), cs.filterMap (·.function?)⟩

/-- The items of the first outline, then those of the second. -/
def append (a b : Outline) : Outline :=
  ⟨a.filePath, a.macros ++ b.macros, a.namespaces ++ b.namespaces, a.classes ++ b.classes,
    a.enums ++ b.enums, a.functions ++ b.functions⟩

theorem ofCallbacks_append (cs ds : List Callback) :
    ofCallbacks (cs ++ ds) = append (ofCallbacks cs) (ofCallbacks ds) := by
  simp [ofCallbacks, append]

theorem size_append (a b : Outline) : (append a b).size = a.size + b.size := by
  simp only [append, size, List.length_append]
  omega

theorem size_ofCallbacks (cs : List Callback) :
    (ofCallbacks cs).size = cs.countP (·.event.isConstruct) := by
  induction cs with
  | nil => rfl
  | cons c cs ih =>
    have h : (ofCallbacks [c]).size = if c.event.isConstruct then 1 else 0 := by
      rcases c with ⟨e, n, fs⟩
      cases e <;> rfl
    rw [← List.singleton_append, ofCallbacks_append, size_append, h, ih, List.singleton_append,
      List.countP_cons]
    omega

end Outline

end HeaderOutline
