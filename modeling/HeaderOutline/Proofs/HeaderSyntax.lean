import HeaderOutline.Proofs.BraceScan
import HeaderOutline.Proofs.Course
import HeaderOutline.Proofs.Lexemes
/-!
# The syntax of headers

Headers as trees: namespaces, classes with labels, members and classes inside, enums, functions and
their bodies. A tree is well-formed by its type. Each part has its lexemes and what it is reported
as: a text, a value, an event or calls. A header is printed with a separator between its lexemes,
which may be a line break behind a brace, a semicolon or the colon of a label, and before an opening
brace.
-/
namespace HeaderOutline
open Text Declaration

/-! ## Words -/

/-- An ASCII identifier that is no reserved word and no word of a built-in type. -/
def isFreeName (word : String) : Bool :=
  word.toList.head?.any isNameStart && word.toList.all isNameChar && !isReserved word &&
    !isNative word

/-- A digit, and letters, digits and underscores behind it. -/
def isNumber (word : String) : Bool :=
  word.toList.head?.any Token.isDigit && word.toList.all isNameChar

structure WordOf (sort : String → Bool) where
  text : String
  holds : sort text = true

abbrev FreeName := WordOf isFreeName

abbrev NativeWord := WordOf isNative

abbrev NumberWord := WordOf isNumber

def WordOf.lexeme {sort : String → Bool} (w : WordOf sort) : Lexeme :=
  .word w.text

/-! ## Types -/

/-- The items with commas between them. -/
def commas (items : List (List Lexeme)) : List Lexeme :=
  [Lexeme.mark ","].intercalate items

/-- A name with `::` between its parts, and in front when it is `rooted`. -/
structure QualifiedName where
  rooted : Bool
  first : FreeName
  later : List FreeName

namespace QualifiedName

def laterText : List FreeName → String
  | [] => ""
  | n :: ns => "::" ++ n.text ++ laterText ns

def text (q : QualifiedName) : String :=
  (if q.rooted then "::" else "") ++ q.first.text ++ laterText q.later

def lexemes (q : QualifiedName) : List Lexeme :=
  (if q.rooted then [.mark "::"] else []) ++
    q.first.lexeme :: q.later.flatMap fun n => [.mark "::", n.lexeme]

end QualifiedName

/-- Words of a built-in type, or a name. -/
inductive BareType where
  | native (first : NativeWord) (later : List NativeWord)
  | named (name : QualifiedName)

namespace BareType

def texts : BareType → List String
  | native w ws => w.text :: ws.map (·.text)
  | named q => [q.text]

def lexemes : BareType → List Lexeme
  | native w ws => w.lexeme :: ws.map (·.lexeme)
  | named q => q.lexemes

end BareType

/-- The `*` and `&` at the end of a type. -/
structure TypeMarks where
  pointers : Nat
  references : Fin 3

def TypeMarks.texts (m : TypeMarks) : List String :=
  List.replicate m.pointers "*" ++ List.replicate m.references "&"

def TypeMarks.lexemes (m : TypeMarks) : List Lexeme :=
  m.texts.map .mark

def constTexts (isConst : Bool) : List String :=
  if isConst then ["const"] else []

mutual

/-- A type; only names take arguments. Nothing else is read as a type (`exists_typeSyntax`). -/
inductive TypeSyntax where
  | plain (isConst : Bool) (bare : BareType) (marks : TypeMarks)
  | applied (isConst : Bool) (name : QualifiedName) (args : TypeArguments) (marks : TypeMarks)

inductive TypeArguments where
  | nil
  | number (n : NumberWord) (rest : TypeArguments)
  | type (t : TypeSyntax) (rest : TypeArguments)

end

mutual

def TypeSyntax.lexemes : TypeSyntax → List Lexeme
  | .plain c b m => (constTexts c).map .word ++ (b.lexemes ++ m.lexemes)
  | .applied c q args m =>
    (constTexts c).map .word ++ (q.lexemes ++ .mark "<" :: (commas args.items ++
      .mark ">" :: m.lexemes))

def TypeArguments.items : TypeArguments → List (List Lexeme)
  | .nil => []
  | .number n rest => [n.lexeme] :: rest.items
  | .type t rest => t.lexemes :: rest.items

end

mutual

def TypeSyntax.expr : TypeSyntax → TypeExpr
  | .plain c b m => .ofTokens (constTexts c ++ b.texts ++ m.texts)
  | .applied c q args m =>
    ((TypeExpr.ofTokens (constTexts c ++ [q.text] ++ ["<"])).append (.ofGroups args.exprs)).append
      (.ofTokens (">" :: m.texts))

def TypeArguments.exprs : TypeArguments → List TypeExpr
  | .nil => []
  | .number n rest => .ofTokens [n.text] :: rest.exprs
  | .type t rest => t.expr :: rest.exprs

end

/-! ## Declarations -/

/-- A parameter: three dots, or a type with or without a name. -/
inductive ParameterSyntax where
  | variadic
  | typed (type : TypeSyntax) (name : Option FreeName)

namespace ParameterSyntax

def lexemes : ParameterSyntax → List Lexeme
  | variadic => [.mark "..."]
  | typed t name => t.lexemes ++ name.toList.map (·.lexeme)

def value : ParameterSyntax → Parameter
  | variadic => ⟨.ofTokens ["..."], none⟩
  | typed t name => ⟨t.expr, name.map (·.text)⟩

end ParameterSyntax

/-- A parameter list. It is not just `void`, which stands for no parameters. -/
structure ParameterList where
  items : List ParameterSyntax
  notVoid : items.map (·.lexemes) ≠ [[.word "void"]]

namespace ParameterList

def lexemes (ps : ParameterList) : List Lexeme :=
  .mark "(" :: (commas (ps.items.map (·.lexemes)) ++ [.mark ")"])

def values (ps : ParameterList) : List Parameter :=
  ps.items.map (·.value)

end ParameterList

/-- A function up to its semicolon or body. -/
structure FunctionSyntax where
  type : TypeSyntax
  name : FreeName
  params : ParameterList
  isConst : Bool

namespace FunctionSyntax

def lexemes (f : FunctionSyntax) : List Lexeme :=
  f.type.lexemes ++ f.name.lexeme :: (f.params.lexemes ++ (constTexts f.isConst).map .word)

def signature (f : FunctionSyntax) : Signature :=
  { Signature.named f.name.text f.params.values with
    returnType := some f.type.expr, isConst := f.isConst }

end FunctionSyntax

/-- The inside of a function's body: plain tokens with balanced braces. -/
structure BodySyntax where
  lexemes : List Lexeme
  plain : ∀ l ∈ lexemes, l.isPlain = true
  balanced : Brace.Balanced (lexemes.filterMap fun l => Brace.ofText? l.chars)

/-- An enum without values. The word `class` or `struct` and the name may be left out. -/
structure EnumSyntax where
  key : Option ClassKey
  name : Option FreeName
  members : List FreeName

namespace EnumSyntax

def lexemes (e : EnumSyntax) : List Lexeme :=
  .word "enum" :: (e.key.toList.map (.word ·.keyword) ++ e.name.toList.map (·.lexeme) ++
    .mark "\x7b" :: (commas (e.members.map ([·.lexeme])) ++ [.mark "\x7d", .mark ";"]))

def value (e : EnumSyntax) : EnumDecl :=
  ⟨e.name.map (·.text), e.members.map (·.text)⟩

end EnumSyntax

/-- What a class and a namespace may both hold, apart from classes. -/
inductive DeclSyntax where
  | enum (e : EnumSyntax)
  | function (f : FunctionSyntax)
  | definition (f : FunctionSyntax) (body : BodySyntax)

namespace DeclSyntax

def lexemes : DeclSyntax → List Lexeme
  | enum e => e.lexemes
  | function f => f.lexemes ++ [.mark ";"]
  | definition f body => f.lexemes ++ .mark "\x7b" :: (body.lexemes ++ [.mark "\x7d"])

def event : DeclSyntax → Event
  | enum e => .enum e.value
  | function f => .functionDecl f.signature
  | definition f _ => .functionDef f.signature

end DeclSyntax

/-! ## Classes -/

structure TemplateSyntax where
  first : FreeName
  later : List FreeName

namespace TemplateSyntax

def lexemes (t : TemplateSyntax) : List Lexeme :=
  .word "template" :: .mark "<" ::
    (commas ((t.first :: t.later).map fun n => [.word "typename", n.lexeme]) ++ [.mark ">"])

def value (t : TemplateSyntax) : TemplateParams :=
  ⟨(t.first :: t.later).map (·.text)⟩

end TemplateSyntax

structure ClassSyntax where
  template : Option TemplateSyntax
  key : ClassKey
  name : FreeName

namespace ClassSyntax

def lexemes (c : ClassSyntax) : List Lexeme :=
  (c.template.map (·.lexemes)).getD [] ++ [.word c.key.keyword, c.name.lexeme]

def head (c : ClassSyntax) : ClassHead :=
  ⟨c.template.map (·.value), c.key, c.name.text⟩

def body (c : ClassSyntax) : ClassBody :=
  { ClassBody.ofHead c.name.text c.key (c.template.map (·.value)) with opened := true }

/-- The head and the start of the class as they are reported. -/
def calls (fs : ScopeStack) (c : ClassSyntax) : List Call :=
  [(.classHead c.head, fs), (.classStart c.name.text, .classBody c.body :: fs)]

end ClassSyntax

inductive MembersSyntax where
  | nil
  | label (level : AccessLevel) (rest : MembersSyntax)
  | constructor (params : ParameterList) (rest : MembersSyntax)
  | destructor (rest : MembersSyntax)
  | declaration (d : DeclSyntax) (rest : MembersSyntax)
  | nested (head : ClassSyntax) (members rest : MembersSyntax)

namespace MembersSyntax

/-- The lexemes of the members of a class, through its end. -/
def lexemes (name : FreeName) : MembersSyntax → List Lexeme
  | nil => [.mark "\x7d", .mark ";"]
  | label level rest => .word level.keyword :: .mark ":" :: rest.lexemes name
  | constructor params rest => name.lexeme :: (params.lexemes ++ .mark ";" :: rest.lexemes name)
  | destructor rest =>
    .mark "~" :: name.lexeme :: .mark "(" :: .mark ")" :: .mark ";" :: rest.lexemes name
  | declaration d rest => d.lexemes ++ rest.lexemes name
  | nested head members rest =>
    head.lexemes ++ .mark "\x7b" :: (members.lexemes head.name ++ rest.lexemes name)

/-- The calls for the members of a class, through its end. Labels change the access that is shown.
-/
def calls (fs : ScopeStack) (c : ClassBody) : MembersSyntax → List Call
  | nil => [(.classEnd c.name, .classBody c :: fs)]
  | label level rest => rest.calls fs { c with access := level }
  | constructor params rest =>
    (.constructorDecl c.name params.values, .classBody c :: fs) :: rest.calls fs c
  | destructor rest => (.destructorDecl ("~" ++ c.name), .classBody c :: fs) :: rest.calls fs c
  | declaration d rest => (d.event, .classBody c :: fs) :: rest.calls fs c
  | nested head members rest =>
    head.calls (.classBody c :: fs) ++ members.calls (.classBody c :: fs) head.body ++
      rest.calls fs c

end MembersSyntax

/-! ## Headers -/

/-- What stands in a header or in a namespace. -/
inductive HeaderSyntax where
  | nil
  | declaration (d : DeclSyntax) (rest : HeaderSyntax)
  | classBody (head : ClassSyntax) (members : MembersSyntax) (rest : HeaderSyntax)
  | nameSpace (name : Option FreeName) (inner rest : HeaderSyntax)

namespace HeaderSyntax

def lexemes : HeaderSyntax → List Lexeme
  | nil => []
  | declaration d rest => d.lexemes ++ rest.lexemes
  | classBody head members rest =>
    head.lexemes ++ .mark "\x7b" :: (members.lexemes head.name ++ rest.lexemes)
  | nameSpace name inner rest =>
    .word "namespace" :: (name.toList.map (·.lexeme) ++
      .mark "\x7b" :: (inner.lexemes ++ .mark "\x7d" :: rest.lexemes))

/-- What a header is reported as, in the scopes around it. -/
def calls (fs : ScopeStack) : HeaderSyntax → List Call
  | nil => []
  | declaration d rest => (d.event, fs) :: rest.calls fs
  | classBody head members rest => head.calls fs ++ members.calls fs head.body ++ rest.calls fs
  | nameSpace name inner rest =>
    let text := (name.map (·.text)).getD ""
    let inside := .nameSpace text true :: fs
    (.nameSpace text, fs) :: (.nameSpaceStart text, inside) :: (inner.calls inside ++
      (.nameSpaceEnd text, inside) :: rest.calls fs)

end HeaderSyntax

/-! ## Print -/

/-- The marks behind which a line may be broken. The only single colon outside bodies is that of a
label. -/
def breakers : List Lexeme :=
  [.mark "\x7b", .mark "\x7d", .mark ";", .mark ":"]

/-- The line may be broken between the two. -/
def mayBreak (last next : Lexeme) : Bool :=
  breakers.contains last || next == .mark "\x7b"

/-- The lexemes behind `last`, with a line break where one may stand and is asked for, and a blank
elsewhere. The separators are counted from `i`. -/
def printAfter (breaks : Nat → Bool) (i : Nat) (last : Lexeme) : List Lexeme → List Char
  | [] => []
  | l :: ls =>
    (if breaks i && mayBreak last l then '\n' else ' ') ::
      (l.chars ++ printAfter breaks (i + 1) l ls)

/-- The lexemes with separators between them. -/
def print (breaks : Nat → Bool) : List Lexeme → List Char
  | [] => []
  | l :: ls => l.chars ++ printAfter breaks 0 l ls

/-- A header as it is printed; `breaks` tells where a line is broken if it may be. -/
def HeaderSyntax.print (breaks : Nat → Bool) (h : HeaderSyntax) : String :=
  String.ofList (HeaderOutline.print breaks h.lexemes)

end HeaderOutline
