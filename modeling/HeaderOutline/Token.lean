import HeaderOutline.Text.Blank
import HeaderOutline.Text.Word
import HeaderOutline.Text.Quote
/-!
# Tokens

A fragment is read as words, literals and marks. A word is a run of name characters, a literal runs
from a quote to the next one that no backslash protects (or to the end of the text), and a mark is
`::`, `...` or any other single character. Spaces separate tokens and belong to none.

A token tells whether a space stands in front of it, and nothing else of its place, so what is read
from tokens hardly depends on how they are laid out.

Results:
* `exists_lexeme_of_next?`, `isSpace_of_next?_none`: a text with a first token, and one without.
* `length_of_next?`: reading a token shortens the text.
* `tokens_of_next?`, `tokens_of_next?_none`: one step of `tokens`.
* `tokens_afterTokens`: the text behind the first `n` tokens reads as the remaining tokens.
* `tokens_textOf`: the part of a text found for its last tokens reads as these.
-/
namespace HeaderOutline

/-- What a token is made of. -/
inductive TokenKind where
  /-- A run of ASCII letters, digits and underscores. -/
  | word
  /-- `::`, `...` or any other single character. -/
  | mark
  /-- A quoted string or character. -/
  | literal
  deriving DecidableEq, Repr

/-- A token; `spaced` when a space stands in front of it. -/
structure Token where
  kind : TokenKind
  text : String
  spaced : Bool
  deriving DecidableEq, Repr

namespace Token
open Text

def isDigit (c : Char) : Bool :=
  0x30 ≤ c.toNat && c.toNat ≤ 0x39

def startsWithDigit (t : Token) : Bool :=
  t.text.toList.head?.any isDigit

/-- A word that does not begin with a digit. Mirrors `is_ident`. -/
def isName (t : Token) : Bool :=
  t.kind == .word && !t.startsWithDigit

/-- A word that begins with a digit. Mirrors `is_number`. -/
def isNumber (t : Token) : Bool :=
  t.kind == .word && t.startsWithDigit

/-! ## Reading one token -/

/-- The rest of a literal after its opening quote `q`, and what follows it. Mirrors
`literal_end`. -/
def literalRest (q : Char) : List Char → List Char × List Char
  | [] => ([], [])
  | '\\' :: c :: r =>
    let (inner, rest) := literalRest q r
    ('\\' :: c :: inner, rest)
  | c :: r =>
    if c = q then ([c], r)
    else
      let (inner, rest) := literalRest q r
      (c :: inner, rest)

theorem append_literalRest (q : Char) (cs : List Char) :
    (literalRest q cs).1 ++ (literalRest q cs).2 = cs := by
  fun_induction literalRest q cs <;> simp_all

/-- The token that begins with `c` and goes on in `r`, and what follows it. Mirrors one round of the
loop in `tokenize`. -/
def lexeme (c : Char) (r : List Char) : TokenKind × List Char × List Char :=
  if isNameChar c then (.word, c :: r.takeWhile isNameChar, r.dropWhile isNameChar)
  else if isQuote c then
    let (inner, rest) := literalRest c r
    (.literal, c :: inner, rest)
  else match c, r with
    | ':', ':' :: r' => (.mark, [':', ':'], r')
    | '.', '.' :: '.' :: r' => (.mark, ['.', '.', '.'], r')
    | _, _ => (.mark, [c], r)

theorem append_lexeme (c : Char) (r : List Char) :
    (lexeme c r).2.1 ++ (lexeme c r).2.2 = c :: r := by
  unfold lexeme
  split
  · simp
  · split
    · simp [append_literalRest]
    · split <;> simp

theorem lexeme_ne_nil (c : Char) (r : List Char) : (lexeme c r).2.1 ≠ [] := by
  unfold lexeme
  split
  · simp
  · split
    · simp
    · split <;> simp

/-- The first token of a text and what follows it. -/
def next? (cs : List Char) : Option (Token × List Char) :=
  match cs.dropWhile isSpace with
  | [] => none
  | c :: r =>
    let (kind, text, rest) := lexeme c r
    some (⟨kind, String.ofList text, cs.head?.any isSpace⟩, rest)

/-- A text without a token is made of spaces. -/
theorem isSpace_of_next?_none {cs : List Char} (h : next? cs = none) :
    ∀ c ∈ cs, isSpace c = true := by
  unfold next? at h
  split at h
  · next hd =>
    have hall := List.takeWhile_append_dropWhile (p := isSpace) (l := cs)
    rw [hd, List.append_nil] at hall
    exact fun c hc => List.all_eq_true.mp List.all_takeWhile c (hall.symm ▸ hc)
  · exact absurd h (by simp)

/-- The first token of a text is the lexeme behind the spaces in front. -/
theorem exists_lexeme_of_next? {cs rest : List Char} {t : Token} (h : next? cs = some (t, rest)) :
    ∃ c r, cs.dropWhile isSpace = c :: r ∧
      t = ⟨(lexeme c r).1, String.ofList (lexeme c r).2.1, cs.head?.any isSpace⟩ ∧
      rest = (lexeme c r).2.2 := by
  unfold next? at h
  split at h
  · exact absurd h (by simp)
  · next c r hd =>
    simp only [Option.some.injEq, Prod.mk.injEq] at h
    exact ⟨c, r, hd, h.1.symm, h.2.symm⟩

/-- A text is the spaces in front, the first token and what follows it. -/
theorem append_of_next? {cs rest : List Char} {t : Token} (h : next? cs = some (t, rest)) :
    cs.takeWhile isSpace ++ (t.text.toList ++ rest) = cs := by
  obtain ⟨c, r, hd, rfl, rfl⟩ := exists_lexeme_of_next? h
  simp only [String.toList_ofList, append_lexeme, ← hd, List.takeWhile_append_dropWhile]

theorem text_ne_nil_of_next? {cs rest : List Char} {t : Token} (h : next? cs = some (t, rest)) :
    t.text.toList ≠ [] := by
  obtain ⟨c, r, -, rfl, rfl⟩ := exists_lexeme_of_next? h
  simpa using lexeme_ne_nil c r

/-- Reading a token shortens the text. -/
theorem length_of_next? {cs rest : List Char} {t : Token} (h : next? cs = some (t, rest)) :
    rest.length < cs.length := by
  have h1 := congrArg List.length (append_of_next? h)
  have h2 := List.length_pos_iff.mpr (text_ne_nil_of_next? h)
  simp only [List.length_append] at h1
  omega

/-! ## All tokens -/

/-- The tokens of a text. Mirrors `tokenize`. -/
def tokens (cs : List Char) : List Token :=
  match _h : next? cs with
  | none => []
  | some (t, rest) => t :: tokens rest
termination_by cs.length
decreasing_by exact length_of_next? _h

theorem tokens_of_next?_none {cs : List Char} (h : next? cs = none) : tokens cs = [] := by
  rw [tokens]
  split
  · rfl
  · next h' => rw [h] at h'; cases h'

theorem tokens_of_next? {cs rest : List Char} {t : Token} (h : next? cs = some (t, rest)) :
    tokens cs = t :: tokens rest := by
  rw [tokens]
  split
  · next h' => rw [h] at h'; cases h'
  · next h' => rw [h] at h'; cases h'; rfl

/-- What follows the first `n` tokens of a text. -/
def afterTokens : Nat → List Char → List Char
  | 0, cs => cs
  | n + 1, cs =>
    match next? cs with
    | none => cs
    | some (_, rest) => afterTokens n rest

theorem tokens_afterTokens (n : Nat) (cs : List Char) :
    tokens (afterTokens n cs) = (tokens cs).drop n := by
  induction n generalizing cs with
  | zero => rfl
  | succ n ih =>
    rw [afterTokens]
    split
    · next h => rw [tokens_of_next?_none h]; rfl
    · next h => rw [ih, tokens_of_next? h]; rfl

/-- What follows some tokens is no longer than the text, and shorter when there is one to read. -/
theorem length_afterTokens_le (n : Nat) (cs : List Char) :
    (afterTokens n cs).length ≤ cs.length := by
  induction n generalizing cs with
  | zero => exact Nat.le_refl _
  | succ n ih =>
    rw [afterTokens]
    split
    · exact Nat.le_refl _
    · next h => exact Nat.le_trans (ih _) (Nat.le_of_lt (length_of_next? h))

theorem length_afterTokens_lt {n : Nat} {cs : List Char} (hn : 0 < n) (hcs : tokens cs ≠ []) :
    (afterTokens n cs).length < cs.length := by
  obtain ⟨m, rfl⟩ : ∃ m, n = m + 1 := ⟨n - 1, by omega⟩
  rw [afterTokens]
  split
  · next h => exact absurd (tokens_of_next?_none h) hcs
  · next h => exact Nat.lt_of_le_of_lt (length_afterTokens_le _ _) (length_of_next? h)

/-! ## From tokens back to the text -/

/-- The part of a text that its last tokens `rest` are read from. -/
def textOf (rest : List Token) (cs : List Char) : List Char :=
  afterTokens ((tokens cs).length - rest.length) cs

theorem tokens_textOf {rest : List Token} {cs : List Char} (h : rest <:+ tokens cs) :
    tokens (textOf rest cs) = rest := by
  rw [textOf, tokens_afterTokens]
  exact (List.suffix_iff_eq_drop.mp h).symm

theorem length_textOf_lt {rest : List Token} {cs : List Char}
    (h : rest.length < (tokens cs).length) : (textOf rest cs).length < cs.length :=
  length_afterTokens_lt (by omega) (by intro h0; rw [h0] at h; exact absurd h (by simp))

end Token

end HeaderOutline
