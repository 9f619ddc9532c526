import HeaderOutline.EnumDecl
import HeaderOutline.Text.Blank
import HeaderOutline.Text.Split
import HeaderOutline.Text.Word
import HeaderOutline.Token
/-!
# Enum bodies

A whole enum `enum class Name : type { A, B = 1, };` within one text. The words `class` and
`struct`, the name and the type are optional, the body holds no braces, and a semicolon must follow.
The items are parted by commas wherever those stand; each is a name, possibly with `=` and a value,
and only the last one may be empty.

`afterStatement?` finds the first semicolon outside braces. An enum without a body that can be read
is passed over up to there, be it a forward declaration, a variable, or one whose values hold commas.

Results: `length_of_enumDecl?` and `length_of_afterStatement?`, both leave less text.
-/
namespace HeaderOutline.Declaration
open Text

/-! ## Members -/

/-- The name in an item of an enum body. -/
def memberName? (item : List Char) : Option String :=
  match name? item with
  | none => none
  | some (word, rest) =>
    match trimStart rest with
    | [] => some (String.ofList word)
    | c :: _ => if c = '=' then some (String.ofList word) else none

/-- The names in the items of an enum body. -/
def memberNames? : List (List Char) → Option (List String)
  | [] => some []
  | [last] =>
    if (trim last).isEmpty then some [] else (memberName? (trim last)).map ([·])
  | item :: items =>
    match memberName? (trim item) with
    | none => none
    | some name => (memberNames? items).map (name :: ·)

/-! ## The declaration -/

/-- What follows an optional `class` or `struct` and its blanks. -/
def skipScopeWord (cs : List Char) : List Char :=
  match (afterWord? "class" cs).or (afterWord? "struct" cs) with
  | some rest => trimStart rest
  | none => cs

/-- The optional name of an enum. -/
def enumName (cs : List Char) : Option String × List Char :=
  match name? cs with
  | some (word, rest) => (some (String.ofList word), rest)
  | none => (none, cs)

/-- A character of an underlying type. -/
def isTypeChar (c : Char) : Bool :=
  isWordChar c || c == ':' || isBlank c

/-- What follows an optional underlying type, which begins with a colon and is not empty. -/
def skipUnderlying? : List Char → Option (List Char)
  | [] => some []
  | c :: r =>
    if c = ':' then
      if (r.takeWhile isTypeChar).isEmpty then none else some (r.dropWhile isTypeChar)
    else some (c :: r)

def isBrace (c : Char) : Bool :=
  c == '\x7b' || c == '\x7d'

/-- A whole enum at the start of a text, through its semicolon. Mirrors `parse_enum` of the grammar,
with the pattern `RE_ENUM`. -/
def enumDecl? (cs : List Char) : Option (EnumDecl × List Char) := do
  let cs ← afterWord? "enum" cs
  let (name, cs) := enumName (skipScopeWord (trimStart cs))
  let cs ← skipUnderlying? (trimStart cs)
  let cs ← afterMark? '\x7b' cs
  let body := cs.takeWhile fun c => !isBrace c
  let cs ← afterMark? '\x7d' (cs.dropWhile fun c => !isBrace c)
  let cs ← afterMark? ';' (trimStart cs)
  let members ← memberNames? (split ',' body)
  some (⟨name, members⟩, cs)

/-- Mirrors `starts_enum`. -/
def startsEnum (cs : List Char) : Bool :=
  (afterWord? "enum" cs).isSome

/-! ## Statements -/

/-- What follows the first semicolon outside `depth` open braces. A brace that closes nothing is
passed over. Mirrors the loop in `statement_end`. -/
def afterSemicolon? (depth : Nat) : List Token → Option (List Token)
  | [] => none
  | t :: ts =>
    if t.text = "\x7b" then afterSemicolon? (depth + 1) ts
    else if t.text = "\x7d" then afterSemicolon? (depth - 1) ts
    else if t.text = ";" ∧ depth = 0 then some ts
    else afterSemicolon? depth ts

theorem suffix_of_afterSemicolon? {depth : Nat} {ts r : List Token}
    (h : afterSemicolon? depth ts = some r) : r <:+ ts ∧ r.length < ts.length := by
  fun_induction afterSemicolon? depth ts with
  | case1 => cases h
  | case4 _ t ts => cases h; exact ⟨List.suffix_cons t _, by simp⟩
  | case2 _ t ts _ ih =>
    exact ⟨(ih h).1.trans (List.suffix_cons t ts), Nat.lt_succ_of_lt (ih h).2⟩
  | case3 _ t ts _ _ ih =>
    exact ⟨(ih h).1.trans (List.suffix_cons t ts), Nat.lt_succ_of_lt (ih h).2⟩
  | case5 _ t ts _ _ _ ih =>
    exact ⟨(ih h).1.trans (List.suffix_cons t ts), Nat.lt_succ_of_lt (ih h).2⟩

/-- What follows the first semicolon outside braces. Mirrors `statement_end`. -/
def afterStatement? (cs : List Char) : Option (List Char) :=
  (afterSemicolon? 0 (Token.tokens cs)).map (Token.textOf · cs)

/-! ## Lengths -/

theorem length_of_afterStatement? {cs r : List Char} (h : afterStatement? cs = some r) :
    r.length < cs.length := by
  obtain ⟨rest, hr, rfl⟩ := Option.map_eq_some_iff.mp h
  exact Token.length_textOf_lt (suffix_of_afterSemicolon? hr).2

theorem length_skipScopeWord (cs : List Char) : (skipScopeWord cs).length ≤ cs.length := by
  unfold skipScopeWord
  split
  · next rest h =>
    have h1 := length_trimStart_le rest
    rcases Option.or_eq_some_iff.mp h with h | ⟨_, h⟩ <;>
      exact Nat.le_trans h1 (length_of_afterWord? h)
  · exact Nat.le_refl _

theorem length_enumName (cs : List Char) : (enumName cs).2.length ≤ cs.length := by
  unfold enumName
  split
  · next word rest h =>
    exact Nat.le_of_lt (length_of_name? h)
  · exact Nat.le_refl _

theorem length_of_skipUnderlying? {cs r : List Char} (h : skipUnderlying? cs = some r) :
    r.length ≤ cs.length := by
  cases cs with
  | nil => cases h; exact Nat.le_refl _
  | cons c cs =>
    simp only [skipUnderlying?] at h
    split at h
    · split at h
      · cases h
      · cases h
        exact Nat.le_succ_of_le (List.dropWhile_suffix _).length_le
    · cases h
      exact Nat.le_refl _

theorem length_of_enumDecl? {cs r : List Char} {d : EnumDecl} (h : enumDecl? cs = some (d, r)) :
    r.length < cs.length := by
  simp only [enumDecl?, Option.bind_eq_bind, Option.bind_eq_some_iff, Option.some.injEq,
    Prod.mk.injEq] at h
  obtain ⟨c1, h1, c2, h2, c3, h3, c4, h4, c5, h5, _, _, -, rfl⟩ := h
  have h1 := length_of_afterWord? h1
  have h2 := length_of_skipUnderlying? h2
  have h3 := length_of_afterMark? h3
  have h4 := length_of_afterMark? h4
  have h5 := length_of_afterMark? h5
  have t1 := length_trimStart_le c1
  have t2 := length_skipScopeWord (trimStart c1)
  have t3 := length_enumName (skipScopeWord (trimStart c1))
  have t4 := length_trimStart_le (enumName (skipScopeWord (trimStart c1))).2
  have t5 := (List.dropWhile_suffix (l := c3) (fun c => !isBrace c)).length_le
  have t6 := length_trimStart_le c4
  omega

end HeaderOutline.Declaration
