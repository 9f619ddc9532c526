import HeaderOutline.Proofs.Bodies
import HeaderOutline.Proofs.CalmLexemes
import Mathlib.Data.List.Chain
/-!
# How headers are laid out

`Laid last ls cs`: the text `cs` is the lexemes `ls` behind `last`, each with a separator in front
of it, which is a line break only where one may stand. A printed header is laid out so, and what is
laid out can be taken apart from the front.

Results:
* `laid_printAfter`: printed lexemes are laid out.
* `Laid.uncons`, `Laid.split`, `Laid.group`: one lexeme, some lexemes, lexemes on one line.
* `Laid.head_lineEnd`: the token that the line goes on with.
* `Laid.noComment`, `Laid.tame`, `Laid.bracesAmong`: what stands in the text.
-/
namespace HeaderOutline
open Text Declaration

/-- The text is the lexemes behind `last` with a separator in front of each. -/
inductive Laid : Lexeme → List Lexeme → List Char → Prop
  | nil (last : Lexeme) : Laid last [] []
  | cons {last l : Lexeme} {ls : List Lexeme} {sep : Char} {cs : List Char} :
      sep = ' ' ∨ sep = '\n' ∧ mayBreak last l = true → Laid l ls cs →
      Laid last (l :: ls) (sep :: (l.chars ++ cs))

theorem laid_printAfter (breaks : Nat → Bool) (i : Nat) (last : Lexeme) (ls : List Lexeme) :
    Laid last ls (printAfter breaks i last ls) := by
  induction ls generalizing i last with
  | nil => exact .nil last
  | cons l ls ih =>
    refine .cons ?_ (ih (i + 1) l)
    cases h : breaks i && mayBreak last l with
    | false => exact .inl rfl
    | true =>
      rw [Bool.and_eq_true] at h
      exact .inr ⟨rfl, h.2⟩

/-! ## The characters of plain lexemes -/

/-- The characters of a plain lexeme are name characters, or colons or dots of a longer mark, or a
single mark. -/
theorem plain_cases {l : Lexeme} (hl : l.isPlain = true) :
    (∀ c ∈ l.chars, isNameChar c = true) ∨ l.chars = [':', ':'] ∨ l.chars = ['.', '.', '.'] ∨
      ∃ c, l.chars = [c] ∧ Lexeme.isMarkChar c = true := by
  unfold Lexeme.isPlain at hl
  split at hl
  · simp only [Bool.and_eq_true, List.all_eq_true] at hl
    exact .inl hl.2
  · simp only [Bool.or_eq_true, beq_iff_eq, Bool.and_eq_true, List.all_eq_true] at hl
    rcases hl with (h | h) | ⟨hlen, hall⟩
    · exact .inr (.inl h)
    · exact .inr (.inr (.inl h))
    · obtain ⟨c, hc⟩ := List.length_eq_one_iff.mp hlen
      exact .inr (.inr (.inr ⟨c, hc, hall c (by rw [hc]; exact List.mem_cons_self)⟩))
  · cases hl

theorem ne_of_isNameChar {c d : Char} (h : isNameChar c = true) (hd : isNameChar d = false) :
    c ≠ d := by
  rintro rfl
  rw [h] at hd
  cases hd

theorem isQuote_of_isNameChar {c : Char} (h : isNameChar c = true) : isQuote c = false := by
  have h1 := ne_of_isNameChar h (d := '\x22') (by decide)
  have h2 := ne_of_isNameChar h (d := '\'') (by decide)
  simp [isQuote, h1, h2]

theorem tame_chars {l : Lexeme} (hl : l.isPlain = true) : Tame l.chars := by
  intro c hc
  rcases plain_cases hl with h | h | h | ⟨d, h, hd⟩
  · exact ⟨isQuote_of_isNameChar (h c hc), ne_of_isNameChar (h c hc) (by decide)⟩
  · rw [h] at hc
    revert c
    decide
  · rw [h] at hc
    revert c
    decide
  · rw [h, List.mem_singleton] at hc
    rw [hc]
    simp only [Lexeme.isMarkChar, Bool.and_eq_true, Bool.not_eq_true', bne_iff_ne] at hd
    exact ⟨hd.1.1.2, hd.2⟩

theorem noComment_append {as bs : List Char} (ha : noComment as = true) (hb : noComment bs = true)
    (h : ∀ c ∈ bs.head?, c ≠ '/' ∧ c ≠ '*') : noComment (as ++ bs) = true := by
  induction as with
  | nil => exact hb
  | cons c as ih =>
    rw [noComment, Bool.and_eq_true, Bool.and_eq_true] at ha
    rw [List.cons_append, noComment, ih ha.2, ha.1.1]
    cases as with
    | cons d as => simpa using ha.1.2
    | nil =>
      cases bs with
      | nil => simp
      | cons d bs =>
        have hd := h d rfl
        simp [hd]

theorem noComment_chars {l : Lexeme} (hl : l.isPlain = true) : noComment l.chars = true := by
  have ht := tame_chars hl
  rcases plain_cases hl with h | h | h | ⟨d, h, -⟩
  · generalize l.chars = cs at h
    induction cs with
    | nil => rfl
    | cons c cs ih =>
      obtain ⟨h1, h2⟩ := List.forall_mem_cons.mp h
      rw [noComment, ih h2, isQuote_of_isNameChar h1]
      simp [ne_of_isNameChar h1 (d := '/') (by decide)]
  · rw [h]
    decide
  · rw [h]
    decide
  · rw [h] at ht ⊢
    simp [noComment, (ht d List.mem_cons_self).1]

theorem bracesAmong_chars {l : Lexeme} (hl : l.isPlain = true) :
    bracesAmong l.chars = (Brace.ofText? l.chars).toList := by
  rcases plain_cases hl with h | h | h | ⟨d, h, -⟩
  · have hb : ∀ c ∈ l.chars, Brace.ofChar? c = none := fun c hc => by
      simp [Brace.ofChar?, ne_of_isNameChar (h c hc) (d := '\x7b') (by decide),
        ne_of_isNameChar (h c hc) (d := '\x7d') (by decide)]
    have hnone : Brace.ofText? l.chars = none := by
      unfold Brace.ofText?
      split
      · next c hc => exact hb c (by rw [hc]; exact List.mem_cons_self)
      · rfl
    rw [hnone, bracesAmong, List.filterMap_eq_nil_iff.mpr hb]
    rfl
  · rw [h]
    rfl
  · rw [h]
    rfl
  · rw [h]
    cases hd : Brace.ofChar? d <;> simp [bracesAmong, Brace.ofText?, hd]

theorem Lexeme.Calm.notMem_semicolon {l : Lexeme} (hl : l.Calm) : ';' ∉ l.chars := by
  obtain ⟨⟨hplain, -⟩, hbreak⟩ := hl
  intro hm
  rcases plain_cases hplain with h | h | h | ⟨d, h, hd⟩
  · exact ne_of_isNameChar (h _ hm) (d := ';') (by decide) rfl
  · rw [h] at hm
    revert hm
    decide
  · rw [h] at hm
    revert hm
    decide
  · rw [h, List.mem_singleton] at hm
    obtain ⟨kind, text⟩ := l
    have htext : text = ";" := by
      rw [← String.ofList_toList (s := text)]
      exact congrArg String.ofList (hm ▸ h)
    cases kind with
    | word =>
      subst htext
      revert hplain
      decide
    | mark => exact hbreak (by rw [htext]; decide)
    | literal => cases hplain

/-! ## Firm lexemes -/

theorem Lexeme.Firm.solid {l : Lexeme} (hl : l.Firm) : Solid l.chars := by
  have hne := chars_ne_nil hl.1
  obtain ⟨c, r, hc⟩ := List.exists_cons_of_ne_nil hne
  obtain ⟨r', c', hc'⟩ := (List.eq_nil_or_concat l.chars).resolve_left hne
  refine ⟨⟨c, r, hc, hl.2 c (by simp [hc])⟩, ⟨r', c', by simpa using hc', hl.2 c' (by simp [hc'])⟩,
    fun hm => ?_⟩
  exact absurd (hl.2 _ hm) (by decide)

theorem Solid.join {v w : List Char} (hv : Solid v) (hw : Solid w) : Solid (v ++ ' ' :: w) := by
  obtain ⟨c, r, rfl, hc⟩ := hv.head
  obtain ⟨r', c', rfl, hc'⟩ := hw.last
  refine ⟨⟨c, _, rfl, hc⟩, ⟨c :: r ++ ' ' :: r', c', by simp, hc'⟩, ?_⟩
  have h1 := hv.noBreak
  have h2 := hw.noBreak
  simp only [List.mem_append, List.mem_cons, not_or] at h1 h2 ⊢
  exact ⟨h1, by decide, h2⟩

theorem solid_joined {ls : List Lexeme} (hne : ls ≠ []) (h : ∀ l ∈ ls, l.Firm) :
    Solid (joined ls) := by
  induction ls with
  | nil => exact absurd rfl hne
  | cons l ls ih =>
    have hl := (h l List.mem_cons_self).solid
    cases ls with
    | nil => simpa [joined, spaced] using hl
    | cons m ls =>
      have hm := ih (by simp) fun k hk => h k (List.mem_cons_of_mem _ hk)
      have hj : joined (l :: m :: ls) = l.chars ++ ' ' :: joined (m :: ls) := rfl
      rw [hj]
      exact hl.join hm

namespace Laid

variable {last l : Lexeme} {ls ms : List Lexeme} {cs : List Char}

theorem uncons (h : Laid last (l :: ls) cs) :
    ∃ sep ds, cs = sep :: (l.chars ++ ds) ∧ (sep = ' ' ∨ sep = '\n' ∧ mayBreak last l = true) ∧
      Laid l ls ds := by
  cases h with
  | cons hs h => exact ⟨_, _, rfl, hs, h⟩

theorem split (h : Laid last (ls ++ ms) cs) :
    ∃ as bs last', cs = as ++ bs ∧ Laid last ls as ∧ Laid last' ms bs := by
  induction ls generalizing last cs with
  | nil => exact ⟨[], cs, last, rfl, .nil last, h⟩
  | cons l ls ih =>
    obtain ⟨sep, ds, rfl, hs, h⟩ := h.uncons
    obtain ⟨as, bs, last', rfl, h1, h2⟩ := ih h
    exact ⟨sep :: (l.chars ++ as), bs, last', by simp, .cons hs h1, h2⟩

/-! ## Groups -/

/-- Lexemes that no line break parts. -/
def Unbroken (ls : List Lexeme) : Prop :=
  ls.IsChain fun l m => mayBreak l m = false

theorem unbroken_of_calm {x : Lexeme} (h : AllCalm ls) (hx : x ≠ .mark "\x7b") :
    Unbroken (ls ++ [x]) := by
  have hbreak : ∀ l m : Lexeme, l.Calm → m ≠ .mark "\x7b" → mayBreak l m = false :=
    fun l m hl hm => by simp [mayBreak, hl.2, hm]
  induction ls with
  | nil => exact List.isChain_singleton x
  | cons l ls ih =>
    obtain ⟨hl, hls⟩ := allCalm_cons.mp h
    refine List.isChain_cons.mpr ⟨fun m hm => hbreak l m hl ?_, ih hls⟩
    cases ls with
    | nil => cases hm; exact hx
    | cons k ls =>
      cases hm
      rintro rfl
      exact (hls _ List.mem_cons_self).2 (by decide)

/-- Lexemes that no line break parts are laid out with blanks between them. -/
theorem spaced_of_unbroken (hu : Unbroken (last :: ls)) (h : Laid last ls cs) :
    cs = spaced ls := by
  induction ls generalizing last cs with
  | nil => cases h; rfl
  | cons l ls ih =>
    obtain ⟨sep, ds, rfl, hs, h'⟩ := h.uncons
    obtain ⟨hb, hu⟩ := List.isChain_cons_cons.mp hu
    rcases hs with rfl | ⟨-, hbreak⟩
    · rw [ih hu h']
      rfl
    · rw [hb] at hbreak
      cases hbreak

theorem isBlank_sep {sep : Char} (h : sep = ' ' ∨ sep = '\n' ∧ mayBreak last l = true) :
    isBlank sep = true := by
  rcases h with rfl | ⟨rfl, -⟩ <;> decide

theorem group (hne : ls ≠ []) (hu : Unbroken ls) (h : Laid last (ls ++ ms) cs) :
    ∃ sep ds last', cs = sep :: (joined ls ++ ds) ∧ isBlank sep = true ∧ Laid last' ms ds := by
  obtain ⟨as, bs, last', rfl, h1, h2⟩ := h.split
  obtain ⟨l, ls, rfl⟩ := List.exists_cons_of_ne_nil hne
  obtain ⟨sep, ds, rfl, hs, h1⟩ := h1.uncons
  rw [spaced_of_unbroken hu h1]
  exact ⟨sep, bs, last', rfl, isBlank_sep hs, h2⟩

/-! ## Lines -/

theorem lineEnd_front (cs : List Char) : lineEnd cs <+: cs :=
  (trimEnd_front _).trans (List.takeWhile_prefix _)

theorem parted_lineEnd (h : Laid last ls cs) : Parted (lineEnd cs) := by
  cases h with
  | nil => exact parted_nil
  | @cons _ l ls sep ds hs h =>
    rcases hs with rfl | ⟨rfl, -⟩
    · intro c hc
      obtain ⟨r, hr⟩ := lineEnd_front (' ' :: (l.chars ++ ds))
      cases he : lineEnd (' ' :: (l.chars ++ ds)) with
      | nil => rw [he] at hc; cases hc
      | cons d e =>
        rw [he] at hc hr
        cases hc
        exact (List.cons.inj hr).1
    · exact parted_nil

theorem lineEnd_space {l : Lexeme} (hl : l.Firm) (cs : List Char) :
    lineEnd (' ' :: (l.chars ++ cs)) = ' ' :: (l.chars ++ lineEnd cs) := by
  obtain ⟨c, r, hc, hb⟩ := hl.solid.head
  rw [← lineEnd_append hl.solid, hc]
  exact HeaderOutline.lineEnd_space hb _

theorem head_lineEnd (h : Laid last (l :: ls) cs) (hl : l.Firm) :
    ∀ t ∈ (Token.tokens (lineEnd cs)).head?, t.text = l.text := by
  obtain ⟨sep, ds, rfl, hs, h'⟩ := h.uncons
  rcases hs with rfl | ⟨rfl, -⟩
  · rw [lineEnd_space hl, Token.tokens_of_next? (next?_plain hl.1 h'.parted_lineEnd).2]
    intro t ht
    cases ht
    rfl
  · intro t ht
    have hline : lineEnd ('\n' :: (l.chars ++ ds)) = [] := rfl
    rw [hline, Token.tokens_of_next?_none rfl] at ht
    cases ht

/-! ## What stands in the text -/

/-- What holds of separators and of the characters of every lexeme holds of the text. -/
theorem forall_chars {P : Char → Prop} (hsep : P ' ' ∧ P '\n')
    (hls : ∀ l ∈ ls, ∀ c ∈ l.chars, P c) (h : Laid last ls cs) : ∀ c ∈ cs, P c := by
  induction h with
  | nil => exact fun _ hc => absurd hc List.not_mem_nil
  | cons hs _ ih =>
    obtain ⟨h1, h2⟩ := List.forall_mem_cons.mp hls
    refine List.forall_mem_cons.mpr ⟨?_, List.forall_mem_append.mpr ⟨h1, ih h2⟩⟩
    rcases hs with rfl | ⟨rfl, -⟩
    · exact hsep.1
    · exact hsep.2

theorem tame (hls : AllPlain ls) (h : Laid last ls cs) : Tame cs :=
  h.forall_chars (by decide) fun l hl => tame_chars (hls l hl)

theorem noComment (hls : AllPlain ls) (h : Laid last ls cs) : noComment cs = true := by
  induction h with
  | nil => rfl
  | @cons last l ls sep cs hs h ih =>
    obtain ⟨hl, hls⟩ := allPlain_cons.mp hls
    have hrest : HeaderOutline.noComment (l.chars ++ cs) = true := by
      refine noComment_append (noComment_chars hl) (ih hls) fun c hc => ?_
      cases h with
      | nil => cases hc
      | cons hs' _ =>
        cases hc
        rcases hs' with rfl | ⟨rfl, -⟩ <;> decide
    rcases hs with rfl | ⟨rfl, -⟩
    · rw [HeaderOutline.noComment, hrest]
      rfl
    · rw [HeaderOutline.noComment, hrest]
      rfl

theorem bracesAmong (hls : AllPlain ls) (h : Laid last ls cs) :
    bracesAmong cs = ls.filterMap fun l => Brace.ofText? l.chars := by
  induction h with
  | nil => rfl
  | @cons last l ls sep cs hs h ih =>
    obtain ⟨hl, hls⟩ := allPlain_cons.mp hls
    have hsep : HeaderOutline.bracesAmong (sep :: (l.chars ++ cs)) =
        HeaderOutline.bracesAmong (l.chars ++ cs) := by
      rcases hs with rfl | ⟨rfl, -⟩ <;> rfl
    rw [hsep, bracesAmong_append, ih hls, bracesAmong_chars hl, List.filterMap_cons]
    cases Brace.ofText? l.chars <;> rfl

end Laid

end HeaderOutline
