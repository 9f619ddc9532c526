import HeaderOutline.Event
import HeaderOutline.Path
/-!
# Implementation skeletons

The text of an implementation file for a header: namespaces are opened and closed as in the header,
and every declaration gets an empty body. Members of class templates are left out, since their
bodies belong in the header, and so are functions that are pure virtual, defaulted or deleted.

The text is made up callback by callback: `text_append`.
-/
namespace HeaderOutline.Skeleton

/-- The name under which a header is included. Mirrors `include_name`. -/
def includeName (header : String) : String :=
  (Path.fileName? header).getD ""

/-- The names of the enclosing classes, outermost first, each followed by `::`. Mirrors
`class_prefix`. -/
def qualifier (fs : ScopeStack) : String :=
  String.join (fs.classes.reverse.map (·.name ++ "::"))

/-- An empty body for a function whose scopes are `fs`. Mirrors `write_body`. -/
def emptyBody (fs : ScopeStack) (name params : String) (isConst : Bool) : String :=
  qualifier fs ++ name ++ "(" ++ params ++ ")" ++ (if isConst then " const" else "") ++
    "\n\x7b\n\x7d\n\n"

/-- An empty body behind the template head and the return type of a function. -/
def functionBody (fs : ScopeStack) (s : Signature) : String :=
  (s.template.map (·.render ++ "\n")).getD "" ++ (s.returnType.map (·.render ++ " ")).getD "" ++
    emptyBody fs s.name (renderParams s.params) s.isConst

/-- What a callback adds to the skeleton of a header. Mirrors `ImplementationSkeleton`. -/
def piece (header : String) (c : Callback) : String :=
  match c.event with
  | .parseStart => "#include \x22" ++ includeName header ++ "\x22\n\n"
  | .nameSpace name => if name.isEmpty then "namespace\n" else "namespace " ++ name ++ "\n"
  | .nameSpaceStart _ => "\x7b\n\n"
  | .nameSpaceEnd _ => "\x7d\n"
  | .functionDecl s =>
    if c.scopes.insideTemplate || !s.needsBody then "" else functionBody c.scopes s
  | .constructorDecl name params =>
    if c.scopes.insideTemplate then "" else emptyBody c.scopes name (renderParams params) false
  | .destructorDecl name =>
    if c.scopes.insideTemplate then "" else emptyBody c.scopes name "" false
  | _ => ""

/-- The skeleton of a header whose reading made these callbacks. -/
def text (header : String) (cs : List Callback) : String :=
  String.join (cs.map (piece header))

theorem text_append (header : String) (cs ds : List Callback) :
    text header (cs ++ ds) = text header cs ++ text header ds := by
  simp [text]

end HeaderOutline.Skeleton
