import HeaderOutline.Rule
/-!
# Lexemes

A lexeme is a token without its place: what it is made of, and its text. A list of lexemes is
written with a blank in front of each (`spaced`) or between them (`joined`).

Results:
* `lexes_joined`: lexemes that are written down are read back, whatever stands behind the next
  blank.
* `Lexes.textOf`: the text behind them is what is left.
* `readText_joined`: so a rule on tokens takes a written declaration when its reader does.
-/
namespace HeaderOutline
open Text

/-- A token without its place. -/
structure Lexeme where
  kind : TokenKind
  text : String
  deriving DecidableEq, Repr

def Token.bare (t : Token) : Lexeme :=
  ⟨t.kind, t.text⟩

namespace Lexeme

def word (text : String) : Lexeme :=
  ⟨.word, text⟩

def mark (text : String) : Lexeme :=
  ⟨.mark, text⟩

def chars (l : Lexeme) : List Char :=
  l.text.toList

def token (spaced : Bool) (l : Lexeme) : Token :=
  ⟨l.kind, l.text, spaced⟩

/-- An ASCII character that is a mark by itself, other than `#`. -/
def isMarkChar (c : Char) : Bool :=
  decide (c.toNat < 0x80) && !isNameChar c && !isQuote c && !isSpace c && c != '#'

/-- An ASCII token without quotes and `#`. -/
def isPlain (l : Lexeme) : Bool :=
  match l.kind with
  | .word => !l.chars.isEmpty && l.chars.all isNameChar
  | .mark => l.chars == [':', ':'] || l.chars == ['.', '.', '.'] ||
      (l.chars.length == 1 && l.chars.all isMarkChar)
  | .literal => false

end Lexeme

theorem chars_ne_nil {l : Lexeme} (hl : l.isPlain = true) : l.chars ≠ [] := by
  intro h
  rw [Lexeme.isPlain, h] at hl
  split at hl <;> simp at hl

/-! ## Characters -/

theorem ascii_of_isNameChar {c : Char} (h : isNameChar c = true) : c.toNat < 0x80 := by
  simp only [isNameChar, isAsciiAlphanumeric, Bool.or_eq_true, Bool.and_eq_true,
    decide_eq_true_eq, beq_iff_eq] at h
  rcases h with ((h | h) | h) | rfl
  · omega
  · omega
  · omega
  · decide

theorem isBlank_of_isNameChar {c : Char} (h : isNameChar c = true) : isBlank c = false := by
  simp only [isNameChar, isAsciiAlphanumeric, Bool.or_eq_true, Bool.and_eq_true,
    decide_eq_true_eq, beq_iff_eq] at h
  simp only [isBlank, Bool.or_eq_false_iff, Bool.and_eq_false_iff, beq_eq_false_iff_ne,
    decide_eq_false_iff_not]
  rcases h with ((h | h) | h) | rfl
  · omega
  · omega
  · omega
  · decide

theorem isNameChar_of_isBlank {c : Char} (h : isBlank c = true) : isNameChar c = false := by
  refine Bool.eq_false_iff.mpr fun hn => ?_
  rw [isBlank_of_isNameChar hn] at h
  cases h

theorem isSpace_of_isNameChar {c : Char} (h : isNameChar c = true) : isSpace c = false := by
  refine Bool.eq_false_iff.mpr fun hs => ?_
  exact absurd (isBlank_of_isSpace hs) (Bool.eq_false_iff.mp (isBlank_of_isNameChar h))

theorem isWordChar_of_isNameChar {c : Char} (h : isNameChar c = true) : isWordChar c = true := by
  rw [isWordChar, if_pos (ascii_of_isNameChar h), h]

/-- The text is empty or goes on with a blank. -/
def Parted (cs : List Char) : Prop :=
  ∀ c ∈ cs.head?, c = ' '

theorem parted_nil : Parted [] := fun _ h => by cases h

theorem parted_cons (cs : List Char) : Parted (' ' :: cs) := fun _ h => by cases h; rfl

theorem Parted.startsWord {cs : List Char} (hp : Parted cs) : startsWord cs = false := by
  cases cs with
  | nil => rfl
  | cons c cs =>
    rw [hp c rfl]
    rfl

/-! ## Words in front of a text -/

theorem takeWhile_parted {p : Char → Bool} (hb : p ' ' = false) {w cs : List Char}
    (hw : ∀ c ∈ w, p c = true) (hp : Parted cs) :
    (w ++ cs).takeWhile p = w ∧ (w ++ cs).dropWhile p = cs := by
  have hcs : cs.takeWhile p = [] ∧ cs.dropWhile p = cs := by
    cases cs with
    | nil => exact ⟨rfl, rfl⟩
    | cons c cs => rw [hp c rfl]; simp [hb]
  rw [List.takeWhile_append_of_pos hw, List.dropWhile_append_of_pos hw, hcs.1, hcs.2,
    List.append_nil]
  exact ⟨rfl, rfl⟩

theorem after?_append (word : String) (cs : List Char) :
    after? word (word.toList ++ cs) = some cs := by
  simp [after?]

theorem afterWord?_self {word : String} {cs : List Char} (h : startsWord cs = false) :
    afterWord? word (word.toList ++ cs) = some cs := by
  rw [afterWord?, after?_append, Option.filter_some, h]
  rfl

theorem afterWord?_append (word : String) {cs : List Char} (hp : Parted cs) :
    afterWord? word (word.toList ++ cs) = some cs :=
  afterWord?_self hp.startsWord

theorem afterWord?_other {word : String} {w cs : List Char}
    (hword : ∀ c ∈ word.toList, isNameChar c = true) (hw : ∀ c ∈ w, isNameChar c = true)
    (hcs : startsWord cs = false) (hne : w ≠ word.toList) : afterWord? word (w ++ cs) = none := by
  refine Option.eq_none_iff_forall_ne_some.mpr fun r hr => ?_
  have hstop : startsWord r = false := by simpa using (Option.filter_eq_some_iff.mp hr).2
  have hstarts : ∀ c x, isNameChar c = true → startsWord (c :: x) = true := fun c x hc => by
    simp [startsWord, isWordChar_of_isNameChar hc]
  rcases List.append_eq_append_iff.mp (append_of_afterWord? hr) with ⟨x, hx, rfl⟩ | ⟨x, hx, rfl⟩
  · -- The other word ends within the word.
    cases x with
    | nil => exact hne (hx.trans (List.append_nil _))
    | cons c x =>
      rw [List.cons_append, hstarts c _ (hw c (by rw [hx]; simp))] at hstop
      cases hstop
  · -- It goes on behind the word.
    cases x with
    | nil => exact hne ((List.append_nil _).symm.trans hx.symm)
    | cons c x =>
      rw [List.cons_append, hstarts c _ (hword c (by rw [hx]; simp))] at hcs
      cases hcs

theorem name?_self {w cs : List Char} (hs : w.head?.any isNameStart = true)
    (hw : ∀ c ∈ w, isNameChar c = true) (hcs : startsWord cs = false) :
    Text.name? (w ++ cs) = some (w, cs) := by
  cases w with
  | nil => cases hs
  | cons c w =>
    have hall : ∀ d ∈ w, isWordChar d = true := fun d hd =>
      isWordChar_of_isNameChar (hw d (List.mem_cons_of_mem _ hd))
    have hstop : cs.takeWhile isWordChar = [] ∧ cs.dropWhile isWordChar = cs := by
      cases cs with
      | nil => exact ⟨rfl, rfl⟩
      | cons d cs =>
        have hd : isWordChar d = false := hcs
        simp [hd]
    have hc : isNameStart c = true := hs
    rw [List.cons_append, Text.name?, if_pos hc, List.takeWhile_append_of_pos hall,
      List.dropWhile_append_of_pos hall, hstop.1, hstop.2, List.append_nil]

theorem name?_append {w cs : List Char} (hs : w.head?.any isNameStart = true)
    (hw : ∀ c ∈ w, isNameChar c = true) (hp : Parted cs) :
    Text.name? (w ++ cs) = some (w, cs) :=
  name?_self hs hw hp.startsWord

/-! ## Reading step by step -/

/-- The first tokens of a text are these, and the rest follows them. -/
inductive Lexes : List Char → List Token → List Char → Prop
  | nil (cs : List Char) : Lexes cs [] cs
  | cons {cs r rest : List Char} {t : Token} {ts : List Token} :
      Token.next? cs = some (t, r) → Lexes r ts rest → Lexes cs (t :: ts) rest

namespace Lexes

variable {cs mid rest : List Char} {ts us : List Token}

theorem append (h : Lexes cs ts mid) (h' : Lexes mid us rest) : Lexes cs (ts ++ us) rest := by
  induction h with
  | nil => exact h'
  | cons hn _ ih => exact .cons hn (ih h')

theorem tokens (h : Lexes cs ts rest) : Token.tokens cs = ts ++ Token.tokens rest := by
  induction h with
  | nil => rfl
  | cons hn _ ih => rw [Token.tokens_of_next? hn, ih]; rfl

theorem afterTokens (h : Lexes cs ts rest) : Token.afterTokens ts.length cs = rest := by
  induction h with
  | nil => rfl
  | cons hn _ ih => rw [List.length_cons, Token.afterTokens, hn]; exact ih

/-- The text behind the tokens is where the other tokens are read from. -/
theorem textOf (h : Lexes cs ts rest) : Token.textOf (Token.tokens rest) cs = rest := by
  have hn : (Token.tokens cs).length - (Token.tokens rest).length = ts.length := by
    rw [h.tokens, List.length_append]
    omega
  rw [Token.textOf, hn, h.afterTokens]

end Lexes

theorem exists_next? {cs : List Char} {t : Token} {ts : List Token}
    (h : Token.tokens cs = t :: ts) :
    ∃ rest, Token.next? cs = some (t, rest) ∧ Token.tokens rest = ts := by
  cases hn : Token.next? cs with
  | none => rw [Token.tokens_of_next?_none hn] at h; cases h
  | some x =>
    rw [Token.tokens_of_next? hn] at h
    obtain ⟨rfl, rfl⟩ := List.cons.inj h
    exact ⟨x.2, rfl, rfl⟩

/-- The first of the tokens of a text are read from its front. -/
theorem exists_lexes {cs : List Char} {ts us : List Token} (h : Token.tokens cs = ts ++ us) :
    ∃ rest, Lexes cs ts rest ∧ Token.tokens rest = us := by
  induction ts generalizing cs with
  | nil => exact ⟨cs, .nil cs, h⟩
  | cons t ts ih =>
    obtain ⟨mid, hn, hmid⟩ := exists_next? h
    obtain ⟨rest, hl, hrest⟩ := ih hmid
    exact ⟨rest, .cons hn hl, hrest⟩

/-! ## One lexeme -/

/-- A token ends before a character that goes on no word and no mark, if it ends before it as a
literal. -/
theorem lexeme_append {c b : Char} {r ds : List Char} (hname : isNameChar b = false)
    (hmark : b ≠ ':' ∧ b ≠ '.')
    (h : isQuote c = true → Token.literalRest c (r ++ b :: ds) =
      ((Token.literalRest c r).1, (Token.literalRest c r).2 ++ b :: ds)) :
    Token.lexeme c (r ++ b :: ds) =
      ((Token.lexeme c r).1, (Token.lexeme c r).2.1, (Token.lexeme c r).2.2 ++ b :: ds) := by
  unfold Token.lexeme
  split
  · have ht : (r ++ b :: ds).takeWhile isNameChar = r.takeWhile isNameChar := by
      rw [List.takeWhile_append]
      split
      · next he => simp [hname, (List.takeWhile_sublist _).eq_of_length he]
      · rfl
    have hd : (r ++ b :: ds).dropWhile isNameChar = r.dropWhile isNameChar ++ b :: ds := by
      rw [List.dropWhile_append]
      split
      · next he => simp [List.isEmpty_iff.mp he, hname]
      · rfl
    rw [ht, hd]
  · split
    · next hq => rw [h hq]
    · by_cases hcolon : c = ':'
      · subst hcolon
        cases r with
        | nil => simp [hmark.1]
        | cons d r => by_cases hd : d = ':' <;> simp [hd]
      · by_cases hdot : c = '.'
        · subst hdot
          rcases r with _ | ⟨d, _ | ⟨e, r⟩⟩
          · simp [hmark.2]
          · by_cases hd : d = '.' <;> simp [hd, hmark.2]
          · by_cases hd : d = '.' <;> by_cases he : e = '.' <;> simp [hd, he]
        · simp [hcolon, hdot]

theorem next?_of_lexeme {c : Char} {r rest text : List Char} {kind : TokenKind}
    (hs : isSpace c = false) (h : Token.lexeme c r = (kind, text, rest)) :
    Token.next? (c :: r) = some (⟨kind, String.ofList text, false⟩, rest) ∧
      Token.next? (' ' :: c :: r) = some (⟨kind, String.ofList text, true⟩, rest) := by
  constructor
  · simp [Token.next?, hs, h]
  · have h1 : isSpace ' ' = true := by decide
    simp [Token.next?, hs, h, h1]

/-- A plain lexeme is read back, with a blank in front or without. -/
theorem next?_plain {l : Lexeme} (hl : l.isPlain = true) {cs : List Char} (hp : Parted cs) :
    Token.next? (l.chars ++ cs) = some (l.token false, cs) ∧
      Token.next? (' ' :: (l.chars ++ cs)) = some (l.token true, cs) := by
  obtain ⟨kind, text⟩ := l
  have ht : text = String.ofList text.toList := String.ofList_toList.symm
  simp only [Lexeme.chars, Lexeme.token, Lexeme.isPlain] at hl ⊢
  cases kind with
  | word =>
    simp only [Bool.and_eq_true, Bool.not_eq_true', List.all_eq_true] at hl
    obtain ⟨hne, hall⟩ := hl
    cases hw : text.toList with
    | nil => rw [hw] at hne; cases hne
    | cons c w =>
      rw [hw] at hall ht
      obtain ⟨h1, h2⟩ := takeWhile_parted (p := isNameChar) (by decide)
        (fun d hd => hall d (List.mem_cons_of_mem _ hd)) hp (w := w)
      have hc := hall c List.mem_cons_self
      have hx : Token.lexeme c (w ++ cs) = (.word, c :: w, cs) := by
        unfold Token.lexeme
        rw [if_pos hc, h1, h2]
      rw [ht]
      exact next?_of_lexeme (isSpace_of_isNameChar hc) hx
  | mark =>
    simp only [Bool.or_eq_true, beq_iff_eq, Bool.and_eq_true, List.all_eq_true] at hl
    rcases hl with (hw | hw) | ⟨hlen, hall⟩
    · rw [hw] at ht ⊢
      rw [ht]
      exact next?_of_lexeme (by decide) rfl
    · rw [hw] at ht ⊢
      rw [ht]
      exact next?_of_lexeme (by decide) rfl
    · obtain ⟨c, hw⟩ := List.length_eq_one_iff.mp hlen
      rw [hw] at hall ht ⊢
      have hc := hall c List.mem_cons_self
      simp only [Lexeme.isMarkChar, Bool.and_eq_true, Bool.not_eq_true', decide_eq_true_eq] at hc
      obtain ⟨⟨⟨⟨-, h1⟩, h2⟩, h3⟩, -⟩ := hc
      have hx : Token.lexeme c cs = (.mark, [c], cs) := by
        unfold Token.lexeme
        rw [if_neg (by simp [h1]), if_neg (by simp [h2])]
        split
        · next h => exact absurd (hp _ rfl) (by decide)
        · next h => exact absurd (hp _ rfl) (by decide)
        · rfl
      rw [ht]
      exact next?_of_lexeme h3 hx
  | literal => cases hl

/-! ## Written lexemes -/

def spaced (ls : List Lexeme) : List Char :=
  ls.flatMap fun l => ' ' :: l.chars

def joined : List Lexeme → List Char
  | [] => []
  | l :: ls => l.chars ++ spaced ls

def tokensOf : List Lexeme → List Token
  | [] => []
  | l :: ls => l.token false :: ls.map (Lexeme.token true)

theorem spaced_append (ls ms : List Lexeme) : spaced (ls ++ ms) = spaced ls ++ spaced ms :=
  List.flatMap_append

theorem parted_spaced (ls : List Lexeme) {cs : List Char} (h : Parted cs) :
    Parted (spaced ls ++ cs) := by
  cases ls with
  | nil => exact h
  | cons l ls => exact parted_cons _

theorem lexes_spaced {ls : List Lexeme} (hl : ∀ l ∈ ls, l.isPlain = true) {cs : List Char}
    (hp : Parted cs) : Lexes (spaced ls ++ cs) (ls.map (Lexeme.token true)) cs := by
  induction ls with
  | nil => exact .nil cs
  | cons l ls ih =>
    have h := (next?_plain (hl l List.mem_cons_self) (parted_spaced ls hp)).2
    refine .cons ?_ (ih fun m hm => hl m (List.mem_cons_of_mem _ hm))
    simpa [spaced] using h

/-- Written lexemes are read back. -/
theorem lexes_joined {ls : List Lexeme} (hl : ∀ l ∈ ls, l.isPlain = true) {cs : List Char}
    (hp : Parted cs) : Lexes (joined ls ++ cs) (tokensOf ls) cs := by
  cases ls with
  | nil => exact .nil cs
  | cons l ls =>
    have h := (next?_plain (hl l List.mem_cons_self) (parted_spaced ls hp)).1
    refine .cons ?_ (lexes_spaced (fun m hm => hl m (List.mem_cons_of_mem _ hm)) hp)
    simpa [joined] using h

/-- A rule on tokens takes written lexemes when its reader takes their tokens. -/
theorem readText_joined {α : Type} {read : Declaration.Reader α} {make : α → Construct} {a : α}
    {ls : List Lexeme} (hl : ∀ l ∈ ls, l.isPlain = true) {cs : List Char} (hp : Parted cs)
    (h : read (tokensOf ls ++ Token.tokens cs) = some (a, Token.tokens cs)) :
    Rule.readText read make (joined ls ++ cs) = some (make a, cs) := by
  have hx := lexes_joined hl hp
  simp only [Rule.readText, hx.tokens, h, Option.map_some, hx.textOf]

/-- A rule on tokens refuses written lexemes when its reader refuses their tokens. -/
theorem readText_joined_none {α : Type} {read : Declaration.Reader α} {make : α → Construct}
    {ls : List Lexeme} (hl : ∀ l ∈ ls, l.isPlain = true) {cs : List Char} (hp : Parted cs)
    (h : read (tokensOf ls ++ Token.tokens cs) = none) :
    Rule.readText read make (joined ls ++ cs) = none := by
  rw [Rule.readText, (lexes_joined hl hp).tokens, h, Option.map_none]

end HeaderOutline
