import HeaderOutline.Proofs.Delimiters
import HeaderOutline.Proofs.Layout
import HeaderOutline.Proofs.PlacedTokens
/-!
# Spread texts

`Spread ls cs`: the text `cs` is made of the lexemes `ls`, each behind any number of spaces. This is
what the tokens of a text say about its characters, as long as its last literal is closed.

Results:
* `spread_of_tokens`: every text that does not end with a literal is spread.
* `Spread.split`: the texts in front of a lexeme and behind it.
* `Spread.count`: a character that is no space is found as often as in the lexemes.
* `Spread.solid_behind`: something stands behind every comma in the text if so in the lexemes.
-/
namespace HeaderOutline
open Text

/-! ## Lexemes of a text -/

/-- The lexeme is one that is read of a text: a word, a literal that is closed, or a mark. -/
def Lexeme.IsRead (l : Lexeme) : Prop :=
  match l.kind with
  | .word => l.chars ≠ [] ∧ ∀ c ∈ l.chars, isNameChar c = true
  | .literal => l.chars.head?.any isQuote = true ∧ l.chars.getLast?.any isQuote = true
  | .mark => l.chars = [':', ':'] ∨ l.chars = ['.', '.', '.'] ∨ ∃ c, l.chars = [c]

theorem Lexeme.IsRead.ne_nil {l : Lexeme} (h : l.IsRead) : l.chars ≠ [] := by
  unfold Lexeme.IsRead at h
  split at h
  · exact h.1
  · intro hnil
    rw [hnil] at h
    cases h.1
  · rcases h with h | h | ⟨c, h⟩ <;> rw [h] <;> exact List.cons_ne_nil _ _

/-- The text is made of the lexemes, with spaces between them. A word ends where it could not go
on. -/
inductive Spread : List Lexeme → List Char → Prop
  | nil {sp : List Char} : (∀ c ∈ sp, isSpace c = true) → Spread [] sp
  | cons {sp cs : List Char} {l : Lexeme} {ls : List Lexeme} : (∀ c ∈ sp, isSpace c = true) →
      l.IsRead → (l.kind = .word → ∀ c ∈ cs.head?, isNameChar c = false) → Spread ls cs →
      Spread (l :: ls) (sp ++ (l.chars ++ cs))

namespace Token

/-- The first token is a lexeme, unless it is a literal at the end of the text, and a word ends
where it could not go on. -/
theorem isRead_of_next? {cs rest : List Char} {t : Token} (h : next? cs = some (t, rest))
    (hlast : t.kind = .literal → rest ≠ []) :
    t.bare.IsRead ∧ (t.kind = .word → ∀ c ∈ rest.head?, isNameChar c = false) := by
  have hclosed := fun hk => isQuote_getLast?_of_next? h hk (hlast hk)
  obtain ⟨c, r, -, rfl, rfl⟩ := exists_lexeme_of_next? h
  revert hclosed
  simp only [Token.bare, Lexeme.IsRead, Lexeme.chars, String.toList_ofList]
  unfold lexeme
  split
  · next hc =>
    refine fun _ => ⟨⟨by simp, List.forall_mem_cons.mpr ⟨hc, fun d hd => ?_⟩⟩, fun _ d hd => ?_⟩
    · exact List.all_eq_true.mp List.all_takeWhile d hd
    · have hstop := List.head?_dropWhile_not isNameChar r
      rw [Option.mem_def.mp hd] at hstop
      exact hstop
  · split
    · next hq => exact fun hclosed => ⟨⟨hq, hclosed rfl⟩, fun hk => by cases hk⟩
    · split
      · exact fun _ => ⟨.inl rfl, fun hk => by cases hk⟩
      · exact fun _ => ⟨.inr (.inl rfl), fun hk => by cases hk⟩
      · exact fun _ => ⟨.inr (.inr ⟨c, rfl⟩), fun hk => by cases hk⟩

end Token

/-- A text that does not end with a literal is spread as its tokens. -/
theorem spread_of_tokens {cs : List Char}
    (h : ∀ t ∈ (Token.tokens cs).getLast?, t.kind ≠ .literal) :
    Spread ((Token.tokens cs).map Token.bare) cs := by
  fun_induction Token.tokens cs with
  | case1 cs hn =>
    exact .nil (Token.isSpace_of_next?_none hn)
  | case2 cs t rest hn ih =>
    have hlast : t.kind = .literal → rest ≠ [] := by
      rintro hk rfl
      rw [Token.tokens_of_next?_none rfl] at h
      exact h t rfl hk
    have hrest : ∀ u ∈ (Token.tokens rest).getLast?, u.kind ≠ .literal := fun u hu => h u (by
      rw [List.getLast?_cons, Option.mem_def.mp hu]
      rfl)
    obtain ⟨hread, hstop⟩ := Token.isRead_of_next? hn hlast
    rw [← Token.append_of_next? hn, List.map_cons]
    exact .cons (fun c hc => List.all_eq_true.mp List.all_takeWhile c hc) hread hstop (ih hrest)

namespace Spread

variable {l : Lexeme} {ls ms : List Lexeme} {cs : List Char}

theorem uncons (h : Spread (l :: ls) cs) :
    ∃ sp ds, cs = sp ++ (l.chars ++ ds) ∧ (∀ c ∈ sp, isSpace c = true) ∧ l.IsRead ∧
      (l.kind = .word → ∀ c ∈ ds.head?, isNameChar c = false) ∧ Spread ls ds := by
  cases h with
  | cons hsp hread hstop h => exact ⟨_, _, rfl, hsp, hread, hstop, h⟩

theorem split (h : Spread (ls ++ l :: ms) cs) :
    ∃ as bs, cs = as ++ (l.chars ++ bs) ∧ Spread ls as ∧ Spread ms bs := by
  induction ls generalizing cs with
  | nil =>
    obtain ⟨sp, ds, rfl, hsp, -, -, h⟩ := h.uncons
    exact ⟨sp, ds, rfl, .nil hsp, h⟩
  | cons k ls ih =>
    obtain ⟨sp, ds, rfl, hsp, hread, hstop, h⟩ := h.uncons
    obtain ⟨as, bs, rfl, has, hbs⟩ := ih h
    refine ⟨sp ++ (k.chars ++ as), bs, by simp, .cons hsp hread (fun hk c hc => hstop hk c ?_) has,
      hbs⟩
    cases as with
    | nil => cases hc
    | cons a as => exact hc

/-- The characters of the text are spaces and those of the lexemes. -/
theorem forall_mem {P : Char → Prop} (h : Spread ls cs) (hsp : ∀ c, isSpace c = true → P c)
    (hls : ∀ l ∈ ls, ∀ c ∈ l.chars, P c) : ∀ c ∈ cs, P c := by
  induction h with
  | nil hs => exact fun c hc => hsp c (hs c hc)
  | cons hs _ _ _ ih =>
    obtain ⟨hl, hls⟩ := List.forall_mem_cons.mp hls
    exact List.forall_mem_append.mpr
      ⟨fun c hc => hsp c (hs c hc), List.forall_mem_append.mpr ⟨hl, ih hls⟩⟩

/-- A character that is no space is in the text only if it is in a lexeme. -/
theorem notMem {c : Char} (h : Spread ls cs) (hc : isSpace c = false)
    (hls : ∀ l ∈ ls, c ∉ l.chars) : c ∉ cs := by
  have hspace : ∀ d, isSpace d = true → d ≠ c := fun d hd he => by
    rw [he, hc] at hd
    cases hd
  have hlexemes : ∀ l ∈ ls, ∀ d ∈ l.chars, d ≠ c := fun l hl d hd he => hls l hl (he ▸ hd)
  exact fun hm => h.forall_mem hspace hlexemes c hm rfl

theorem mem (h : Spread ls cs) (hl : l ∈ ls) : ∀ c ∈ l.chars, c ∈ cs := by
  induction h with
  | nil => cases hl
  | cons _ _ _ _ ih =>
    intro c hc
    rcases List.mem_cons.mp hl with rfl | hl
    · simp [hc]
    · simp [ih hl c hc]

theorem isRead (h : Spread ls cs) : ∀ l ∈ ls, l.IsRead := by
  induction h with
  | nil => exact fun _ hl => absurd hl List.not_mem_nil
  | cons _ hread _ _ ih => exact List.forall_mem_cons.mpr ⟨hread, ih⟩

/-- A character that is no space is found as often as in the lexemes. -/
theorem count {c : Char} (hc : isSpace c = false) (h : Spread ls cs) :
    cs.count c = (ls.flatMap Lexeme.chars).count c := by
  have hspace : ∀ {sp : List Char}, (∀ d ∈ sp, isSpace d = true) → sp.count c = 0 := fun hsp =>
    List.count_eq_zero.mpr fun hm => by
      rw [hsp c hm] at hc
      cases hc
  induction h with
  | nil hs => exact hspace hs
  | cons hs _ _ _ ih =>
    rw [List.flatMap_cons, List.count_append, List.count_append, List.count_append, hspace hs, ih,
      Nat.zero_add]

end Spread

/-! ## Commas -/

/-- Behind every comma among the lexemes stands one that is not blank. -/
def CommasFollowed : List Lexeme → Prop
  | [] => True
  | l :: ls => (l.text = "," → ∃ k ∈ ls, ∃ c ∈ k.chars, isBlank c = false) ∧ CommasFollowed ls

theorem CommasFollowed.append {ls ms : List Lexeme} (hl : CommasFollowed ls)
    (hm : CommasFollowed ms) : CommasFollowed (ls ++ ms) := by
  induction ls with
  | nil => exact hm
  | cons l ls ih =>
    refine ⟨fun h => ?_, ih hl.2⟩
    obtain ⟨k, hk, hc⟩ := hl.1 h
    exact ⟨k, List.mem_append_left _ hk, hc⟩

/-- A lexeme that is no literal holds a mark of one character only if it is this mark. -/
theorem Lexeme.IsRead.text_of_mem {l : Lexeme} {c : Char} (h : l.IsRead) (hk : l.kind ≠ .literal)
    (hc : c ∈ l.chars) (hname : isNameChar c = false) (hlong : c ∉ [':', '.']) :
    l.text = String.ofList [c] := by
  obtain ⟨kind, text⟩ := l
  simp only [Lexeme.IsRead, Lexeme.chars] at h hk hc ⊢
  simp only [List.mem_cons, List.not_mem_nil, or_false, not_or] at hlong
  cases kind with
  | literal => exact absurd rfl hk
  | word =>
    rw [h.2 c hc] at hname
    cases hname
  | mark =>
    simp only at h
    rcases h with h | h | ⟨d, h⟩
    · rw [h] at hc
      exact absurd (by simpa using hc) hlong.1
    · rw [h] at hc
      exact absurd (by simpa using hc) hlong.2
    · rw [h, List.mem_singleton] at hc
      rw [← hc] at h
      exact String.toList_inj.mp (h.trans String.toList_ofList.symm)

/-- Behind every comma of the text stands something that is not blank, if that holds of the
lexemes. -/
theorem Spread.solid_behind {ls : List Lexeme} {cs : List Char} (h : Spread ls cs)
    (hf : CommasFollowed ls) {as bs : List Char} (he : cs = as ++ ',' :: bs) :
    ∃ c ∈ bs, isBlank c = false := by
  induction h generalizing as with
  | nil hs =>
    have hm := hs ',' (by rw [he]; simp)
    exact absurd hm (by decide)
  | @cons sp cs l ls hs hread _ h ih =>
    -- The comma is not among the spaces, so it is in the lexeme or behind it.
    obtain ⟨x, hx⟩ : ∃ x, l.chars ++ cs = x ++ ',' :: bs := by
      rcases List.append_eq_append_iff.mp he with ⟨x, -, hx⟩ | ⟨x, hx, hx'⟩
      · exact ⟨x, hx⟩
      · cases x with
        | nil => exact ⟨[], hx'.symm⟩
        | cons d x =>
          obtain ⟨rfl, -⟩ := List.cons.inj hx'
          exact absurd (hs ',' (by rw [hx]; simp)) (by decide)
    rcases List.append_eq_append_iff.mp hx with ⟨y, -, hy⟩ | ⟨y, hy, hy'⟩
    · exact ih hf.2 hy
    · cases y with
      | nil => exact @ih hf.2 [] hy'.symm
      | cons d y =>
        obtain ⟨rfl, rfl⟩ := List.cons.inj hy'
        by_cases hk : l.kind = .literal
        · -- A literal ends with its quote.
          have hlast : l.chars.getLast?.any isQuote = true := by
            rw [Lexeme.IsRead, hk] at hread
            exact hread.2
          rw [hy, List.getLast?_append, List.getLast?_cons] at hlast
          cases hy : y.getLast? with
          | none =>
            rw [hy] at hlast
            have hq : isQuote ',' = true := hlast
            exact absurd hq (by decide)
          | some q =>
            rw [hy] at hlast
            refine ⟨q, List.mem_append_left _ (List.mem_of_getLast? hy), ?_⟩
            refine Bool.eq_false_iff.mpr fun hb => ?_
            have hq : isQuote q = true := hlast
            rw [(isPlain_iff.mp (isPlain_of_isBlank hb)).2] at hq
            cases hq
        · have hcomma := hread.text_of_mem hk (c := ',') (by rw [hy]; simp) (by decide) (by decide)
          obtain ⟨k, hk, c, hc, hb⟩ := hf.1 hcomma
          exact ⟨c, List.mem_append_right _ (h.mem hk c hc), hb⟩

end HeaderOutline
