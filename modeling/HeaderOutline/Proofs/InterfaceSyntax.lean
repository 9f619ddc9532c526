import HeaderOutline.Proofs.CanonicalText
/-!
# The syntax of interfaces

Headers whose declarations bear all that may stand around a signature: a template head and
specifiers in front, default values behind parameters, and at the end qualifiers and what follows an
equals sign. Namespaces, classes, labels, enums and bodies are as in plain headers, and a header is
printed in the same way.
-/
namespace HeaderOutline
open Declaration

/-! ## Parameters with default values -/

/-- Once `nesting` brackets are open, the lexemes close them, and commas stand inside of brackets
only. -/
def closesValue (nesting : Nat) : List Lexeme → Bool
  | [] => nesting == 0
  | l :: ls =>
    if isOpening l.text then closesValue (nesting + 1) ls
    else if isClosing l.text then decide (0 < nesting) && closesValue (nesting - 1) ls
    else (decide (0 < nesting) || l.text != ",") && closesValue nesting ls

structure ValueSyntax where
  lexemes : List Lexeme
  calm : AllCalm lexemes
  closed : closesValue 0 lexemes = true

/-- A parameter: three dots, or a type with or without a name and a default value. -/
inductive FormalSyntax where
  | variadic
  | typed (type : TypeSyntax) (name : Option FreeName) (value : Option ValueSyntax)

namespace FormalSyntax

/-- The lexemes of a default value with its equals sign, if there is one. -/
def valueLexemes (value : Option ValueSyntax) : List Lexeme :=
  (value.map fun v => .mark "=" :: v.lexemes).getD []

def lexemes : FormalSyntax → List Lexeme
  | variadic => [.mark "..."]
  | typed t name value => t.lexemes ++ (name.toList.map (·.lexeme) ++ valueLexemes value)

def value : FormalSyntax → Parameter
  | variadic => ⟨.ofTokens ["..."], none⟩
  | typed t name _ => ⟨t.expr, name.map (·.text)⟩

end FormalSyntax

/-- A parameter list. It is not just `void` without a name. -/
structure FormalList where
  items : List FormalSyntax
  notVoid : items.map (·.value) ≠ [voidParameter]

namespace FormalList

def lexemes (ps : FormalList) : List Lexeme :=
  .mark "(" :: (commas (ps.items.map (·.lexemes)) ++ [.mark ")"])

def values (ps : FormalList) : List Parameter :=
  ps.items.map (·.value)

end FormalList

/-! ## Words around a signature -/

def isQualifier (text : String) : Bool :=
  text == "const" || text == "override" || text == "final" || text == "noexcept"

/-- A word that may stand in front of a constructor. -/
def isConstructorWord (text : String) : Bool :=
  text == "explicit" || text == "inline" || text == "constexpr"

/-- A word that may stand in front of a destructor. -/
def isDestructorWord (text : String) : Bool :=
  text == "virtual" || text == "inline"

abbrev WordsOf (sort : String → Bool) := List (WordOf sort)

namespace WordsOf

variable {sort : String → Bool}

def lexemes (ws : WordsOf sort) : List Lexeme :=
  List.map WordOf.lexeme ws

def has (text : String) (ws : WordsOf sort) : Bool :=
  List.any ws (·.text == text)

end WordsOf

/-- What follows the equals sign of a specifier. -/
def Specifier.sign : Specifier → String
  | pureVirtual => "0"
  | defaulted => "default"
  | deleted => "delete"

/-- The lexemes of a specifier with its equals sign, if there is one. -/
def specifierLexemes (spec : Option Specifier) : List Lexeme :=
  (spec.map fun s => [.mark "=", .word s.sign]).getD []

/-! ## Declarations -/

/-- A function up to its semicolon, its body or what follows an equals sign. The name may have
parts, but no `::` in front: a type would go on with that. -/
structure RoutineSyntax where
  template : Option TemplateSyntax
  words : WordsOf isSpecifier
  type : TypeSyntax
  name : QualifiedName
  relative : name.rooted = false
  params : FormalList
  qualifiers : WordsOf isQualifier

namespace RoutineSyntax

def lexemes (f : RoutineSyntax) : List Lexeme :=
  (f.template.map (·.lexemes)).getD [] ++ (f.words.lexemes ++ (f.type.lexemes ++
    (f.name.lexemes ++ (f.params.lexemes ++ f.qualifiers.lexemes))))

def signature (f : RoutineSyntax) (spec : Option Specifier) : Signature where
  template := f.template.map (·.value)
  returnType := some f.type.expr
  name := f.name.text
  params := f.params.values
  isConst := f.qualifiers.has "const"
  isStatic := f.words.has "static"
  isVirtual := f.words.has "virtual"
  specifier := spec

end RoutineSyntax

/-- A constructor apart from its name. -/
structure ConstructorSyntax where
  words : WordsOf isConstructorWord
  params : FormalList
  qualifiers : WordsOf isQualifier
  specifier : Option Specifier

/-- A destructor apart from its name. -/
structure DestructorSyntax where
  words : WordsOf isDestructorWord
  qualifiers : WordsOf isQualifier
  specifier : Option Specifier

/-- The lexemes of the constructor of a class, up to its semicolon. -/
def ConstructorSyntax.lexemes (name : FreeName) (c : ConstructorSyntax) : List Lexeme :=
  c.words.lexemes ++ name.lexeme :: (c.params.lexemes ++ (c.qualifiers.lexemes ++
    specifierLexemes c.specifier))

/-- The lexemes of the destructor of a class, up to its semicolon. -/
def DestructorSyntax.lexemes (name : FreeName) (d : DestructorSyntax) : List Lexeme :=
  d.words.lexemes ++ .mark "~" :: name.lexeme :: .mark "(" :: .mark ")" ::
    (d.qualifiers.lexemes ++ specifierLexemes d.specifier)

/-- What a class and a namespace may both hold, apart from classes. -/
inductive InterfaceDecl where
  | enum (e : EnumSyntax)
  | function (f : RoutineSyntax) (spec : Option Specifier)
  | definition (f : RoutineSyntax) (body : BodySyntax)

namespace InterfaceDecl

def lexemes : InterfaceDecl → List Lexeme
  | enum e => e.lexemes
  | function f spec => f.lexemes ++ (specifierLexemes spec ++ [.mark ";"])
  | definition f body => f.lexemes ++ .mark "\x7b" :: (body.lexemes ++ [.mark "\x7d"])

def event : InterfaceDecl → Event
  | enum e => .enum e.value
  | function f spec => .functionDecl (f.signature spec)
  | definition f _ => .functionDef (f.signature none)

end InterfaceDecl

inductive InterfaceMembers where
  | nil
  | label (level : AccessLevel) (rest : InterfaceMembers)
  | constructor (c : ConstructorSyntax) (rest : InterfaceMembers)
  | destructor (d : DestructorSyntax) (rest : InterfaceMembers)
  | declaration (d : InterfaceDecl) (rest : InterfaceMembers)
  | nested (head : ClassSyntax) (members rest : InterfaceMembers)

namespace InterfaceMembers

/-- The lexemes of the members of a class, through its end. -/
def lexemes (name : FreeName) : InterfaceMembers → List Lexeme
  | nil => [.mark "\x7d", .mark ";"]
  | label level rest => .word level.keyword :: .mark ":" :: rest.lexemes name
  | constructor c rest => c.lexemes name ++ .mark ";" :: rest.lexemes name
  | destructor d rest => d.lexemes name ++ .mark ";" :: rest.lexemes name
  | declaration d rest => d.lexemes ++ rest.lexemes name
  | nested head members rest =>
    head.lexemes ++ .mark "\x7b" :: (members.lexemes head.name ++ rest.lexemes name)

/-- The calls for the members of a class, through its end. Labels change the access that is shown.
-/
def calls (fs : ScopeStack) (c : ClassBody) : InterfaceMembers → List Call
  | nil => [(.classEnd c.name, .classBody c :: fs)]
  | label level rest => rest.calls fs { c with access := level }
  | constructor k rest =>
    (.constructorDecl c.name k.params.values, .classBody c :: fs) :: rest.calls fs c
  | destructor _ rest => (.destructorDecl ("~" ++ c.name), .classBody c :: fs) :: rest.calls fs c
  | declaration d rest => (d.event, .classBody c :: fs) :: rest.calls fs c
  | nested head members rest =>
    head.calls (.classBody c :: fs) ++ members.calls (.classBody c :: fs) head.body ++
      rest.calls fs c

end InterfaceMembers

/-- What stands in a header or in a namespace. -/
inductive InterfaceSyntax where
  | nil
  | declaration (d : InterfaceDecl) (rest : InterfaceSyntax)
  | classBody (head : ClassSyntax) (members : InterfaceMembers) (rest : InterfaceSyntax)
  | nameSpace (name : Option FreeName) (inner rest : InterfaceSyntax)

namespace InterfaceSyntax

def lexemes : InterfaceSyntax → List Lexeme
  | nil => []
  | declaration d rest => d.lexemes ++ rest.lexemes
  | classBody head members rest =>
    head.lexemes ++ .mark "\x7b" :: (members.lexemes head.name ++ rest.lexemes)
  | nameSpace name inner rest =>
    .word "namespace" :: (name.toList.map (·.lexeme) ++
      .mark "\x7b" :: (inner.lexemes ++ .mark "\x7d" :: rest.lexemes))

/-- What a header is reported as, in the scopes around it. -/
def calls (fs : ScopeStack) : InterfaceSyntax → List Call
  | nil => []
  | declaration d rest => (d.event, fs) :: rest.calls fs
  | classBody head members rest => head.calls fs ++ members.calls fs head.body ++ rest.calls fs
  | nameSpace name inner rest =>
    let text := (name.map (·.text)).getD ""
    let inside := .nameSpace text true :: fs
    (.nameSpace text, fs) :: (.nameSpaceStart text, inside) :: (inner.calls inside ++
      (.nameSpaceEnd text, inside) :: rest.calls fs)

/-- A header as it is printed; `breaks` tells where a line is broken if it may be. -/
def print (breaks : Nat → Bool) (h : InterfaceSyntax) : String :=
  String.ofList (HeaderOutline.print breaks h.lexemes)

end InterfaceSyntax

end HeaderOutline
