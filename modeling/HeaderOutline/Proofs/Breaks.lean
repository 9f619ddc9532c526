import HeaderOutline.Proofs.BraceScan
import HeaderOutline.Proofs.Lexemes
import HeaderOutline.Proofs.Pieces
/-!
# Broken texts

A text may be broken into lines at white space outside its literals, and the lines are joined again
with a blank between them. The tokens stay the same, but for two things: a token behind a break has
a space in front of it, and white space beyond ASCII, which is a token by itself and no separator,
is gone where the text was broken.

`Continues m g ts us` says this of two lists of tokens: `us` are the tokens `ts` with some gaps left
out, and go on with `m`.

Results:
* `tokens_append_blank`: a text is read up to a blank outside literals as if nothing followed.
* `continues_of_broken`: the tokens of a text and of its lines joined again.
-/
namespace HeaderOutline
open Text

/-! ## Texts and their breaks -/

structure Trimmed (w : List Char) : Prop where
  head : ∃ c r, w = c :: r ∧ isBlank c = false
  last : ∃ r c, w = r ++ [c] ∧ isBlank c = false

theorem trimmed_iff {w : List Char} :
    Trimmed w ↔ w.head?.any (!isBlank ·) = true ∧ w.getLast?.any (!isBlank ·) = true := by
  constructor
  · rintro ⟨⟨c, r, hw, hc⟩, r', c', hw', hc'⟩
    refine ⟨?_, ?_⟩
    · simp [hw, hc]
    · simp [hw', hc']
  · rintro ⟨h1, h2⟩
    obtain ⟨c, hw, hc⟩ := (Option.any_eq_true _ _).mp h1
    obtain ⟨c', hw', hc'⟩ := (Option.any_eq_true _ _).mp h2
    obtain ⟨r, rfl⟩ := List.head?_eq_some_iff.mp hw
    obtain ⟨r', heq⟩ := List.getLast?_eq_some_iff.mp hw'
    exact ⟨⟨c, r, rfl, by simpa using hc⟩, ⟨r', c', heq, by simpa using hc'⟩⟩

instance (w : List Char) : Decidable (Trimmed w) :=
  decidable_of_iff _ trimmed_iff.symm

theorem Trimmed.isBlank_last {w : List Char} (h : Trimmed w) :
    ∀ c ∈ w.getLast?, isBlank c = false := by
  intro c hc
  obtain ⟨r, d, rfl, hd⟩ := h.last
  rw [List.getLast?_concat] at hc
  cases hc
  exact hd

/-- The text is broken into the lines at white space outside its literals. -/
inductive Broken : List Char → List (List Char) → Prop
  | whole {w : List Char} : Trimmed w → Broken w [w]
  | parted {w gap t : List Char} {ls : List (List Char)} : Trimmed w → LiteralsEnd w → gap ≠ [] →
      (∀ c ∈ gap, isBlank c = true) → Broken t ls → Broken (w ++ (gap ++ t)) (w :: ls)

theorem Broken.head {t : List Char} {ls : List (List Char)} (h : Broken t ls) :
    ∃ c r, t = c :: r ∧ isBlank c = false := by
  cases h with
  | whole hw => exact hw.head
  | parted hw _ _ _ _ =>
    obtain ⟨c, r, rfl, hc⟩ := hw.head
    exact ⟨c, _, rfl, hc⟩

theorem withLines_cons (text : List Char) (l : SourceLine) (ls : List SourceLine) :
    withLines text (l :: ls) = text ++ ' ' :: withLines l.text ls := by
  induction ls generalizing text l with
  | nil => rfl
  | cons k ls ih =>
    rw [show withLines text (l :: k :: ls) = withLines (text ++ ' ' :: l.text) (k :: ls) from rfl,
      ih, ih, List.append_assoc, List.cons_append]

/-! ## Tokens before a blank -/

namespace Token

/-- A literal that is closed is read to its end, whatever follows. -/
theorem literalRest_append {q : Char} (hq : q ≠ '\\') {cs : List Char}
    (h : (QuoteMode.quoted q).after cs = .code) (ds : List Char) :
    literalRest q (cs ++ ds) = ((literalRest q cs).1, (literalRest q cs).2 ++ ds) := by
  fun_induction literalRest q cs with
  | case1 => cases h
  | case2 c r inner rest heq ih =>
    have h' : (QuoteMode.quoted q).after r = .code := h
    simp only [List.cons_append, literalRest, ih h', heq]
  | case3 r hno =>
    rw [List.cons_append, literalRest, if_pos rfl]
    exact fun _ _ he => absurd he hq
  | case4 c r hno hc inner rest heq ih =>
    by_cases hb : c = '\\'
    · -- A backslash with nothing behind it leaves the literal open.
      subst hb
      cases r with
      | nil => cases h
      | cons d r => exact absurd rfl (hno d r rfl)
    · have h' : (QuoteMode.quoted q).after r = .code := by
        simpa [QuoteMode.after, QuoteMode.next, hb, hc] using h
      rw [List.cons_append, literalRest, if_neg hc, ih h', heq]
      exact fun _ _ he => absurd he hb

/-- A literal with something behind it is read to its end, whatever follows. -/
theorem literalRest_append_of_rest {q : Char} {cs : List Char} (h : (literalRest q cs).2 ≠ [])
    (ds : List Char) :
    literalRest q (cs ++ ds) = ((literalRest q cs).1, (literalRest q cs).2 ++ ds) := by
  fun_induction literalRest q cs with
  | case1 => exact absurd rfl h
  | case2 c r inner rest heq ih =>
    rw [heq] at ih
    simp only [List.cons_append, literalRest, ih h]
  | case3 r hno =>
    rw [List.cons_append, literalRest, if_pos rfl]
    intro d x hq he
    obtain ⟨e, r, rfl⟩ := List.exists_cons_of_ne_nil h
    exact hno e r hq rfl
  | case4 c r hno hc inner rest heq ih =>
    rw [heq] at ih
    rw [List.cons_append, literalRest, if_neg hc, ih h]
    intro d x hq he
    cases r with
    | nil =>
      cases heq
      exact h rfl
    | cons e r => exact hno e r hq rfl

theorem isNameChar_of_isQuote {c : Char} (h : isQuote c = true) : isNameChar c = false := by
  refine Bool.eq_false_iff.mpr fun hn => ?_
  rw [(isPlain_iff.mp (isPlain_of_isNameChar hn)).2] at h
  cases h

/-- A token ends before a blank, if it ends before it as a literal. -/
theorem lexeme_append_blank {c b : Char} {r ds : List Char} (hb : isBlank b = true)
    (h : isQuote c = true →
      literalRest c (r ++ b :: ds) = ((literalRest c r).1, (literalRest c r).2 ++ b :: ds)) :
    lexeme c (r ++ b :: ds) =
      ((lexeme c r).1, (lexeme c r).2.1, (lexeme c r).2.2 ++ b :: ds) := by
  refine lexeme_append (isNameChar_of_isBlank hb) ⟨?_, ?_⟩ h <;> (rintro rfl; revert hb; decide)

/-- The first token of a text is the same when the text goes on, if it ends there. -/
theorem next?_append {cs ds rest : List Char} {t : Token} (h : next? cs = some (t, rest))
    (hlexeme : ∀ c r, cs.dropWhile isSpace = c :: r →
      lexeme c (r ++ ds) = ((lexeme c r).1, (lexeme c r).2.1, (lexeme c r).2.2 ++ ds)) :
    next? (cs ++ ds) = some (t, rest ++ ds) := by
  obtain ⟨c, r, hd, rfl, rfl⟩ := exists_lexeme_of_next? h
  have hspaces : (cs ++ ds).dropWhile isSpace = c :: (r ++ ds) := by
    simp [List.dropWhile_append, hd]
  have hhead : (cs ++ ds).head?.any isSpace = cs.head?.any isSpace := by
    cases cs with
    | nil => cases hd
    | cons e cs => rfl
  simp only [next?, hspaces, hlexeme c r hd, hhead]

/-- The first token of a text is the same before a blank. -/
theorem next?_append_blank {cs rest : List Char} {t : Token} (h : next? cs = some (t, rest))
    (hl : LiteralsEnd cs) {b : Char} (hb : isBlank b = true) (ds : List Char) :
    next? (cs ++ b :: ds) = some (t, rest ++ b :: ds) := by
  refine next?_append h fun c r hd => lexeme_append_blank hb fun hq => ?_
  have hsplit : cs.takeWhile isSpace ++ c :: r = cs := hd ▸ List.takeWhile_append_dropWhile
  have hs : ∀ e ∈ cs.takeWhile isSpace, isPlain e = true := fun e he =>
    isPlain_of_isSpace (List.all_eq_true.mp List.all_takeWhile e he)
  have hend : LiteralsEnd (c :: r) := (literalsEnd_append (scan_plain hs).2).mp (hsplit.symm ▸ hl)
  have hm : (QuoteMode.quoted c).after r = .code := by
    simpa [LiteralsEnd, QuoteMode.after, QuoteMode.next, hq] using hend
  exact literalRest_append (by rintro rfl; revert hq; decide) hm _

/-- The first token of a text is the same before a blank, unless it is a literal at the end of the
text. -/
theorem next?_append_blank_of_rest {cs rest : List Char} {t : Token}
    (h : next? cs = some (t, rest)) (hlast : t.kind = .literal → rest ≠ []) {b : Char}
    (hb : isBlank b = true) (ds : List Char) :
    next? (cs ++ b :: ds) = some (t, rest ++ b :: ds) := by
  refine next?_append h fun c r hd => lexeme_append_blank hb fun hq =>
    literalRest_append_of_rest ?_ _
  simp only [next?, hd, Option.some.injEq, Prod.mk.injEq] at h
  obtain ⟨rfl, rfl⟩ := h
  have hname := isNameChar_of_isQuote hq
  simpa [lexeme, hname, hq] using hlast

theorem literalsEnd_of_next? {cs rest : List Char} {t : Token} (h : next? cs = some (t, rest))
    (hl : LiteralsEnd cs) : LiteralsEnd rest := by
  obtain ⟨lead, rfl, -, hlead⟩ := scan_next? h
  by_cases hr : rest = []
  · rw [hr]
    rfl
  · exact (literalsEnd_append (hlead hr)).mp hl

/-- A text is read up to a blank outside literals as if nothing followed. -/
theorem tokens_append_blank {w : List Char} (hw : ∀ c ∈ w.getLast?, isBlank c = false)
    (hl : LiteralsEnd w) {b : Char} (hb : isBlank b = true) (ds : List Char) :
    tokens (w ++ b :: ds) = tokens w ++ tokens (b :: ds) := by
  fun_induction tokens w with
  | case1 w hn =>
    -- Nothing but spaces, so nothing at all.
    cases hlast : w.getLast? with
    | none => rw [List.getLast?_eq_none_iff.mp hlast]; rfl
    | some c =>
      have hc := isSpace_of_next?_none hn c (List.mem_of_getLast? hlast)
      have hblank := hw c hlast
      rw [isBlank_of_isSpace hc] at hblank
      cases hblank
  | case2 w t rest hn ih =>
    have hlast : ∀ c ∈ rest.getLast?, isBlank c = false := fun c hc => by
      apply hw
      rw [← append_of_next? hn, List.getLast?_append, List.getLast?_append, hc]
      rfl
    rw [tokens_of_next? (next?_append_blank hn hl hb ds), ih hlast (literalsEnd_of_next? hn hl),
      List.cons_append]

/-! ## Tokens behind a blank -/

def spaceFirst : List Token → List Token
  | [] => []
  | t :: ts => { t with spaced := true } :: ts

theorem tokens_space {c : Char} (hc : isSpace c = true) (cs : List Char) :
    tokens (c :: cs) = spaceFirst (tokens cs) := by
  have hd : (c :: cs).dropWhile isSpace = cs.dropWhile isSpace := by simp [hc]
  cases h : cs.dropWhile isSpace with
  | nil =>
    rw [tokens_of_next?_none (by simp [next?, hd, h]), tokens_of_next?_none (by simp [next?, h])]
    rfl
  | cons d r =>
    rw [@tokens_of_next? (c :: cs) _ _ (by simp only [next?, hd, h]; rfl),
      @tokens_of_next? cs _ _ (by simp only [next?, h]; rfl)]
    simp [spaceFirst, hc]

/-- White space that separates no tokens: a mark that is a blank. -/
def isGap (t : Token) : Bool :=
  t.kind == .mark && !t.text.toList.isEmpty && t.text.toList.all isBlank

theorem tokens_gap {b : Char} (hb : isBlank b = true) (hs : isSpace b = false) (cs : List Char) :
    ∃ t, t.isGap = true ∧ tokens (b :: cs) = t :: tokens cs := by
  have hname := isNameChar_of_isBlank hb
  have hquote : isQuote b = false := (isPlain_iff.mp (isPlain_of_isBlank hb)).2
  have hmark : b ≠ ':' ∧ b ≠ '.' := by
    constructor <;> (rintro rfl; revert hb; decide)
  have hx : lexeme b cs = (.mark, [b], cs) := by
    simp [lexeme, hname, hquote, hmark]
  exact ⟨_, by simp [isGap, hb], tokens_of_next? (next?_of_lexeme hs hx).1⟩

end Token

/-! ## Tokens without some gaps -/

/-- The tokens `us` are `ts` with some gaps left out, and go on with `m`. A token behind a gap that
is left out has a space in front of it; the flag tells that one has just been. -/
inductive Continues (m : List Token) : Bool → List Token → List Token → Prop
  | done (g : Bool) : Continues m g [] m
  | keep {g : Bool} {t u : Token} {ts us : List Token} : u.kind = t.kind → u.text = t.text →
      u.spaced = (t.spaced || g) → Continues m false ts us → Continues m g (t :: ts) (u :: us)
  | drop {g : Bool} {t : Token} {ts us : List Token} : t.isGap = true → Continues m true ts us →
      Continues m g (t :: ts) us

namespace Continues
open Token

variable {m ts us : List Token} {g : Bool}

theorem refl_append (m ts : List Token) : Continues m false ts (ts ++ m) := by
  induction ts with
  | nil => exact .done _
  | cons t ts ih => exact .keep rfl rfl (Bool.or_false _).symm ih

theorem refl (ts : List Token) : Continues [] false ts ts := by
  have h := refl_append [] ts
  rwa [List.append_nil] at h

theorem append (xs : List Token) (h : Continues m false ts us) :
    Continues m false (xs ++ ts) (xs ++ us) := by
  induction xs with
  | nil => exact h
  | cons x xs ih => exact .keep rfl rfl (Bool.or_false _).symm ih

theorem spaceFirst_left (g : Bool) (h : Continues m true ts us) :
    Continues m g (spaceFirst ts) us := by
  cases h with
  | done => exact .done _
  | keep hk ht hs h => exact .keep hk ht (by rw [hs, Bool.or_true]; rfl) h
  | drop hgap h => exact .drop hgap h

theorem spaceFirst_right {t : Token} (ht : t.isGap = false) (h : Continues m false (t :: ts) us) :
    Continues m true (t :: ts) (spaceFirst us) := by
  cases h with
  | keep hk ht hs h => exact .keep hk ht (Bool.or_true _).symm h
  | drop hgap h => rw [ht] at hgap; cases hgap

theorem blanks {gap r : List Char} (hgap : ∀ c ∈ gap, isBlank c = true)
    (hg : gap ≠ [] ∨ g = true) (h : Continues m true (tokens r) us) :
    Continues m g (tokens (gap ++ r)) us := by
  induction gap generalizing g with
  | nil =>
    rcases hg with hg | rfl
    · exact absurd rfl hg
    · exact h
  | cons b gap ih =>
    have hb := hgap b List.mem_cons_self
    have ih := @ih true (fun c hc => hgap c (List.mem_cons_of_mem _ hc)) (.inr rfl)
    rw [List.cons_append]
    cases hs : isSpace b with
    | true =>
      rw [tokens_space hs]
      exact ih.spaceFirst_left g
    | false =>
      obtain ⟨t, ht, heq⟩ := tokens_gap hb hs (gap ++ r)
      rw [heq]
      exact .drop ht ih

end Continues

/-- A text that does not begin with a blank begins with a token, and that is no gap. -/
theorem tokens_of_head {c : Char} {r : List Char} (hc : isBlank c = false) :
    ∃ t ts, Token.tokens (c :: r) = t :: ts ∧ t.text.toList.head? = some c ∧ t.isGap = false := by
  have hs : isSpace c = false := Bool.eq_false_iff.mpr fun h => by
    rw [isBlank_of_isSpace h] at hc
    cases hc
  obtain ⟨kind, text, rest, hx⟩ : ∃ kind text rest, Token.lexeme c r = (kind, c :: text, rest) := by
    unfold Token.lexeme
    split
    · exact ⟨_, _, _, rfl⟩
    · split
      · exact ⟨_, _, _, rfl⟩
      · split <;> exact ⟨_, _, _, rfl⟩
  refine ⟨_, _, Token.tokens_of_next? (next?_of_lexeme hs hx).1, by simp, ?_⟩
  simp [Token.isGap, hc]

/-- The tokens of a broken text, and those of its lines joined again. -/
theorem continues_of_broken {t : List Char} {l : SourceLine} {ls : List SourceLine}
    (h : Broken t (l.text :: ls.map (·.text))) :
    Continues [] false (Token.tokens t) (Token.tokens (withLines l.text ls)) := by
  induction ls generalizing t l with
  | nil =>
    cases h with
    | whole _ => exact .refl _
    | parted _ _ _ _ h => cases h
  | cons k ls ih =>
    rw [List.map_cons] at h
    cases h with
    | @parted _ gap t' _ hw hl hne hgap h =>
      obtain ⟨b, gap, rfl⟩ := List.exists_cons_of_ne_nil hne
      have hsp : isBlank ' ' = true := by decide
      obtain ⟨d, r', rfl, hd⟩ := h.head
      obtain ⟨u, us, hu, -, hgapu⟩ := @tokens_of_head d r' hd
      have ih := ih h
      rw [hu] at ih
      have hjoin := ih.spaceFirst_right hgapu
      rw [← hu, ← Token.tokens_space (c := ' ') (by decide)] at hjoin
      rw [withLines_cons, List.cons_append,
        Token.tokens_append_blank hw.isBlank_last hl (hgap b List.mem_cons_self),
        Token.tokens_append_blank hw.isBlank_last hl hsp]
      exact (Continues.blanks hgap (.inl (by simp)) hjoin).append _

end HeaderOutline
