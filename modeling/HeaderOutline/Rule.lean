import HeaderOutline.Construct
import HeaderOutline.Declaration.EnumBody
import HeaderOutline.Scope
/-!
# Rules

A fragment is matched by the first rule that applies in its context and recognizes its front. The
order is the order of `Rule.all`: later rules are more general, so an identifier with parentheses in
a class is a constructor only because it is no function.

Lines that begin with `#`, the braces and plain statements are recognized everywhere; access labels,
destructors and constructors in classes; namespaces and linkage blocks outside classes; all other
declarations in both. In function bodies and skipped braces only `#` lines, braces and statements
remain.

Results: `length_of_match?`, every match but that of the word `enum` takes some text.
-/
namespace HeaderOutline
open Text Declaration

/-- The rules, by what they recognize. -/
inductive Rule where
  | define
  | directive
  | access
  | linkage
  | nameSpace
  | classHead
  | enumHead
  | callOperator
  | operator
  | function
  | destructor
  | constructor
  | openBrace
  | closeBrace
  | statement
  deriving DecidableEq, Repr

namespace Rule

/-- The rules in order of priority. Mirrors `RULES`. -/
def all : List Rule :=
  [define, directive, access, linkage, nameSpace, classHead, enumHead, callOperator, operator,
   function, destructor, constructor, openBrace, closeBrace, statement]

def describe : Rule → String
  | define => "macro"
  | directive => "directive"
  | access => "access modifier"
  | linkage => "linkage specification"
  | nameSpace => "namespace"
  | classHead => "class"
  | enumHead => "enum"
  | callOperator => "call operator"
  | operator => "operator"
  | function => "function"
  | destructor => "destructor"
  | constructor => "constructor"
  | openBrace => "open brace"
  | closeBrace => "close brace"
  | statement => "statement"

/-- The rule applies in the context. Mirrors `Eligibility`. -/
def appliesIn (context : Context) : Rule → Bool
  | define | directive | openBrace | closeBrace | statement => true
  | access | destructor | constructor => context == .classBody
  | linkage | nameSpace => context == .nameSpace
  | classHead | enumHead | callOperator | operator | function =>
    context == .nameSpace || context == .classBody

/-! ## Rules on text -/

/-- `#define NAME value`: blanks may follow the mark, and must follow the word. The value is
trimmed. Mirrors `recognize_macro`. -/
def define? (cs : List Char) : Option (Construct × List Char) := do
  let cs ← afterMark? '#' cs
  let cs ← after? "define" (trimStart cs)
  if !cs.head?.any isBlank then none
  else
    let cs := trimStart cs
    let name := cs.takeWhile isWordChar
    if name.isEmpty then none
    else some (.define (String.ofList name) (trim (cs.dropWhile isWordChar)), [])

/-- A line that begins with `#`. Mirrors `recognize_directive`. -/
def directive? (cs : List Char) : Option (Construct × List Char) :=
  (afterMark? '#' cs).map fun _ => (.directive, [])

/-- An access keyword and a colon that is no part of `::`. Mirrors `recognize_access`. -/
def access? (cs : List Char) : Option (Construct × List Char) := do
  let (level, cs) ← [AccessLevel.isPublic, .isProtected, .isPrivate].findSome? fun level =>
    (after? level.keyword cs).map (level, ·)
  let cs ← afterMark? ':' (trimStart cs)
  if cs.head? = some ':' then none else some (.access level, cs)

/-- `extern`, a string, and the blanks behind it. Mirrors `recognize_linkage`. -/
def linkage? (cs : List Char) : Option (Construct × List Char) := do
  let cs ← after? "extern" cs
  let cs ← afterMark? '\x22' (trimStart cs)
  let cs ← afterMark? '\x22' (cs.dropWhile (· ≠ '\x22'))
  let cs := trimStart cs
  some (.linkage (cs.head? = some '\x7b'), cs)

/-- The parts `:: name` that follow the name of a namespace. Blanks around `::` are dropped. -/
def laterNames (cs : List Char) : List Char × List Char :=
  match after? "::" (trimStart cs) with
  | none => ([], cs)
  | some behind =>
    match name? (trimStart behind) with
    | none => ([], cs)
    | some (word, rest) =>
      if rest.length < cs.length then
        let (names, last) := laterNames rest
        (':' :: ':' :: word ++ names, last)
      else ([], cs)
termination_by cs.length

/-- What follows `inline` and blanks, when there are some. -/
def skipInline (cs : List Char) : List Char :=
  match after? "inline" cs with
  | some rest => if rest.head?.any isBlank then trimStart rest else cs
  | none => cs

/-- The name of a namespace, empty when there is none. -/
def nameSpaceName (cs : List Char) : List Char × List Char :=
  match name? cs with
  | some (word, rest) =>
    let (names, last) := laterNames rest
    (word ++ names, last)
  | none => ([], cs)

/-- The head of a namespace, with or without a name. An alias is none. Mirrors
`recognize_namespace`. -/
def nameSpace? (cs : List Char) : Option (Construct × List Char) := do
  let cs ← afterWord? "namespace" (skipInline cs)
  let (name, cs) := nameSpaceName (trimStart cs)
  if (trimStart cs).head? = some '=' then none else some (.nameSpace (String.ofList name), cs)

/-! ## Rules on tokens -/

/-- What a reader recognizes in a text, and the text behind it. -/
def readText {α : Type} (read : Reader α) (make : α → Construct) (cs : List Char) :
    Option (Construct × List Char) :=
  (read (Token.tokens cs)).map fun (a, rest) => (make a, Token.textOf rest cs)

/-- Mirrors `is_delimiter`. -/
def isDelimiter (t : Token) : Bool :=
  t.text == "\x7b" || t.text == "\x7d" || t.text == ";"

/-- Everything through the first delimiter, if that is `text`. Mirrors `first_delimiter`. -/
def upTo? (text : String) (ts : List Token) : Option (Unit × List Token) :=
  (skip? text (ts.dropWhile fun t => !isDelimiter t)).map ((), ·)

/-- Everything through a closing brace that is the first delimiter, and the semicolons behind it.
Mirrors `recognize_close_brace`. -/
def throughClose? (ts : List Token) : Option (Unit × List Token) :=
  (upTo? "\x7d" ts).map fun (_, rest) => ((), rest.dropWhile (·.text = ";"))

/-- What a rule recognizes at the start of a fragment, and the text behind it. `className` is the
name of the class on top of the scopes. -/
def recognize? (className : Option String) (cs : List Char) :
    Rule → Option (Construct × List Char)
  | define => define? cs
  | directive => directive? cs
  | access => access? cs
  | linkage => linkage? cs
  | nameSpace => nameSpace? cs
  | classHead => readText classHead? .classHead cs
  | enumHead => if startsEnum cs then some (.enumHead, cs) else none
  | callOperator => readText callOperator? (fun d => .function d.item d.terminated) cs
  | operator => readText operator? (fun d => .function d.item d.terminated) cs
  | function => readText function? (fun d => .function d.item d.terminated) cs
  | destructor => readText destructor? (fun d => .destructor d.item d.terminated) cs
  | constructor =>
    className.bind fun name =>
      readText (constructor? name) (fun d => .constructor d.item d.terminated) cs
  | openBrace => readText (upTo? "\x7b") (fun _ => .openBrace) cs
  | closeBrace => readText throughClose? (fun _ => .closeBrace) cs
  | statement => readText (upTo? ";") (fun _ => .statement) cs

/-- The first rule that applies and recognizes the fragment, what it is, and the text behind it.
Mirrors `dispatch`. -/
def match? (context : Context) (className : Option String) (cs : List Char) :
    Option (Rule × Construct × List Char) :=
  (all.filter (appliesIn context)).findSome? fun rule =>
    (recognize? className cs rule).map (rule, ·)

/-! ## Matches take text -/

theorem length_laterNames (cs : List Char) : (laterNames cs).2.length ≤ cs.length := by
  fun_induction laterNames cs with
  | case1 | case2 | case4 => exact Nat.le_refl _
  | case3 cs behind hb word rest hn hlt names last heq ih =>
    rw [heq] at ih
    simp only at ih ⊢
    omega

theorem length_of_readText {α : Type} {read : Reader α} (hr : Advances read) {make : α → Construct}
    {cs rest : List Char} {k : Construct} (h : readText read make cs = some (k, rest)) :
    rest.length < cs.length := by
  unfold readText at h
  rw [Option.map_eq_some_iff] at h
  obtain ⟨⟨a, ts⟩, h, heq⟩ := h
  simp only [Prod.mk.injEq] at heq
  exact heq.2 ▸ Token.length_textOf_lt (hr h).2

theorem advances_upTo? (text : String) : Advances (upTo? text) := by
  intro ts r a h
  unfold upTo? at h
  rw [Option.map_eq_some_iff] at h
  obtain ⟨r', h, heq⟩ := h
  simp only [Prod.mk.injEq, true_and] at heq
  obtain rfl := heq
  have h1 := List.dropWhile_suffix (l := ts) (fun t => !isDelimiter t)
  have h2 := suffix_of_skip? h
  exact ⟨h2.1.trans h1, by have := h1.length_le; omega⟩

theorem advances_throughClose? : Advances throughClose? := by
  intro ts r a h
  unfold throughClose? at h
  rw [Option.map_eq_some_iff] at h
  obtain ⟨⟨_, rest⟩, h, heq⟩ := h
  simp only [Prod.mk.injEq, true_and] at heq
  obtain rfl := heq
  have h1 := advances_upTo? _ h
  have h2 := List.dropWhile_suffix (l := rest) (fun t => decide (t.text = ";"))
  exact ⟨h2.trans h1.1, by have := h2.length_le; omega⟩

theorem length_of_define? {cs rest : List Char} {k : Construct} (h : define? cs = some (k, rest)) :
    rest.length < cs.length := by
  simp only [define?, Option.bind_eq_bind, Option.bind_eq_some_iff] at h
  obtain ⟨c1, h1, c2, -, h⟩ := h
  have h1 := length_of_afterMark? h1
  split at h
  · cases h
  · split at h
    · cases h
    · cases h
      simp only [List.length_nil]
      omega

theorem length_of_directive? {cs rest : List Char} {k : Construct}
    (h : directive? cs = some (k, rest)) : rest.length < cs.length := by
  simp only [directive?, Option.map_eq_some_iff, Prod.mk.injEq] at h
  obtain ⟨c1, h1, -, rfl⟩ := h
  have h1 := length_of_afterMark? h1
  simp only [List.length_nil]
  omega

theorem length_of_access? {cs rest : List Char} {k : Construct} (h : access? cs = some (k, rest)) :
    rest.length < cs.length := by
  simp only [access?, Option.bind_eq_bind, Option.bind_eq_some_iff, List.findSome?_eq_some_iff,
    Option.map_eq_some_iff] at h
  obtain ⟨⟨level, c1⟩, ⟨_, _, _, -, ⟨c1', h1, heq⟩, -⟩, c2, h2, h⟩ := h
  simp only [Prod.mk.injEq] at heq
  obtain ⟨rfl, rfl⟩ := heq
  have h1 := length_of_after? h1
  have h2 := length_of_afterMark? h2
  have h3 := length_trimStart_le c1'
  simp only at h2 h
  split at h
  · cases h
  · cases h
    omega

theorem length_of_linkage? {cs rest : List Char} {k : Construct}
    (h : linkage? cs = some (k, rest)) : rest.length < cs.length := by
  simp only [linkage?, Option.bind_eq_bind, Option.bind_eq_some_iff, Option.some.injEq,
    Prod.mk.injEq] at h
  obtain ⟨c1, h1, c2, h2, c3, h3, -, rfl⟩ := h
  have h1 := length_of_after? h1
  have h2 := length_of_afterMark? h2
  have h3 := length_of_afterMark? h3
  have h4 := length_trimStart_le c1
  have h5 := (List.dropWhile_suffix (l := c2) (fun c => decide (c ≠ '\x22'))).length_le
  have h6 := length_trimStart_le c3
  omega

theorem length_skipInline (cs : List Char) : (skipInline cs).length ≤ cs.length := by
  unfold skipInline
  split
  · next rest h =>
    split
    · have := length_of_after? h
      have := length_trimStart_le rest
      omega
    · exact Nat.le_refl _
  · exact Nat.le_refl _

theorem length_nameSpaceName (cs : List Char) : (nameSpaceName cs).2.length ≤ cs.length := by
  unfold nameSpaceName
  split
  · next word rest hn =>
    have h1 := length_of_name? hn
    have h2 := length_laterNames rest
    simp only
    omega
  · exact Nat.le_refl _

theorem length_of_nameSpace? {cs rest : List Char} {k : Construct}
    (h : nameSpace? cs = some (k, rest)) : rest.length < cs.length := by
  simp only [nameSpace?, Option.bind_eq_bind, Option.bind_eq_some_iff] at h
  obtain ⟨c1, h1, h⟩ := h
  have h0 := length_skipInline cs
  have h1 : c1.length + 9 = (skipInline cs).length := by
    have := congrArg List.length (append_of_afterWord? h1)
    simp at this
    omega
  have h2 := length_trimStart_le c1
  have h3 := length_nameSpaceName (trimStart c1)
  split at h
  · cases h
  · cases h
    omega

/-- A match takes some text, unless it is that of the word `enum`. -/
theorem length_of_recognize? {className : Option String} {cs rest : List Char} {k : Construct}
    {rule : Rule} (h : recognize? className cs rule = some (k, rest)) (hk : k ≠ .enumHead) :
    rest.length < cs.length := by
  cases rule <;> simp only [recognize?] at h
  case define => exact length_of_define? h
  case directive => exact length_of_directive? h
  case access => exact length_of_access? h
  case linkage => exact length_of_linkage? h
  case nameSpace => exact length_of_nameSpace? h
  case classHead => exact length_of_readText advances_classHead? h
  case enumHead =>
    split at h
    · cases h; exact absurd rfl hk
    · cases h
  case callOperator => exact length_of_readText advances_callOperator? h
  case operator => exact length_of_readText advances_operator? h
  case function => exact length_of_readText advances_function? h
  case destructor => exact length_of_readText advances_destructor? h
  case constructor =>
    obtain ⟨name, -, h⟩ := Option.bind_eq_some_iff.mp h
    exact length_of_readText (advances_constructor? name) h
  case openBrace => exact length_of_readText (advances_upTo? _) h
  case closeBrace => exact length_of_readText advances_throughClose? h
  case statement => exact length_of_readText (advances_upTo? _) h

theorem length_of_match? {context : Context} {className : Option String} {cs rest : List Char}
    {k : Construct} {rule : Rule} (h : match? context className cs = some (rule, k, rest))
    (hk : k ≠ .enumHead) : rest.length < cs.length := by
  obtain ⟨_, r, _, _, h, _⟩ := List.findSome?_eq_some_iff.mp h
  obtain ⟨⟨k', rest'⟩, h', heq⟩ := Option.map_eq_some_iff.mp h
  simp only [Prod.mk.injEq] at heq
  obtain ⟨-, rfl, rfl⟩ := heq
  exact length_of_recognize? h' hk

end Rule

end HeaderOutline
