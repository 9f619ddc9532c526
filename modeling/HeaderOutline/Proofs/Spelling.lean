import HeaderOutline.Declaration.Reader
import HeaderOutline.Proofs.HeaderSyntax
/-!
# Spelled tokens

`Spells rest ls ts`: the tokens `ts` are those of the lexemes `ls`, wherever they stand, and then
`rest`. What a reader does with tokens is said in terms of the lexemes that these spell.

Results:
* `Spells.uncons`, `Spells.split`: the tokens are parted as the lexemes are.
* `name?_spells`, `freeName?_spells`: names.
* `commaList_spells`: a list with commas.
-/
namespace HeaderOutline
open Text Declaration

/-- The tokens spell the lexemes and go on with `rest`. -/
inductive Spells (rest : List Token) : List Lexeme → List Token → Prop
  | nil : Spells rest [] rest
  | cons {ls : List Lexeme} {ts : List Token} (t : Token) :
      Spells rest ls ts → Spells rest (t.bare :: ls) (t :: ts)

namespace Spells

variable {rest ts : List Token} {l : Lexeme} {ls ms : List Lexeme}

theorem eq_of_nil (h : Spells rest [] ts) : ts = rest := by
  cases h
  rfl

theorem uncons (h : Spells rest (l :: ls) ts) :
    ∃ t us, ts = t :: us ∧ t.kind = l.kind ∧ t.text = l.text ∧ Spells rest ls us := by
  cases h with
  | cons t h => exact ⟨t, _, rfl, rfl, rfl, h⟩

/-- The tokens of some lexemes, and of those behind them. -/
theorem split (h : Spells rest (ls ++ ms) ts) : ∃ mid, Spells mid ls ts ∧ Spells rest ms mid := by
  induction ls generalizing ts with
  | nil => exact ⟨ts, .nil, h⟩
  | cons l ls ih =>
    obtain ⟨t, us, rfl, hk, ht, h⟩ := h.uncons
    obtain ⟨mid, h1, h2⟩ := ih h
    have hl : l = t.bare := by rw [Token.bare, hk, ht]
    exact ⟨mid, hl ▸ .cons t h1, h2⟩

theorem skip? (h : Spells rest (l :: ls) ts) :
    ∃ us, Spells rest ls us ∧
      ∀ text, Declaration.skip? text ts = if l.text = text then some us else none := by
  obtain ⟨t, us, rfl, -, ht, h⟩ := h.uncons
  exact ⟨us, h, fun text => by rw [Declaration.skip?, ht]⟩

/-- A reader that looks for a given text finds the first lexeme. -/
theorem skip?_self (h : Spells rest (l :: ls) ts) :
    ∃ us, Spells rest ls us ∧ Declaration.skip? l.text ts = some us := by
  obtain ⟨us, hu, hs⟩ := h.skip?
  exact ⟨us, hu, by rw [hs, if_pos rfl]⟩

theorem skip?_ne (h : Spells rest (l :: ls) ts) {text : String} (hne : l.text ≠ text) :
    Declaration.skip? text ts = none := by
  obtain ⟨us, -, hs⟩ := h.skip?
  rw [hs, if_neg hne]

theorem head (h : Spells rest (l :: ls) ts) : ∀ t ∈ ts.head?, t.text = l.text := by
  obtain ⟨t, us, rfl, -, ht, -⟩ := h.uncons
  intro u hu
  cases hu
  exact ht

end Spells

theorem spells_tokensOf (rest : List Token) (ls : List Lexeme) :
    Spells rest ls (tokensOf ls ++ rest) := by
  have h : ∀ ms, Spells rest ms (ms.map (Lexeme.token true) ++ rest) := fun ms => by
    induction ms with
    | nil => exact .nil
    | cons m ms ih => exact .cons (m.token true) ih
  cases ls with
  | nil => exact .nil
  | cons l ls => exact .cons (l.token false) (h ls)

/-! ## Words -/

namespace WordOf

variable {sort : String → Bool}

/-- A word differs from every text that is not of its sort. -/
theorem ne (w : WordOf sort) {text : String} (h : sort text = false) : w.text ≠ text := by
  rintro rfl
  rw [w.holds] at h
  cases h

theorem isPlain (w : WordOf sort) (h : w.text.toList ≠ [])
    (hc : ∀ c ∈ w.text.toList, isNameChar c = true) : w.lexeme.isPlain = true := by
  simp only [Lexeme.isPlain, lexeme, Lexeme.word, Lexeme.chars, Bool.and_eq_true,
    Bool.not_eq_true', List.isEmpty_eq_false_iff, List.all_eq_true]
  exact ⟨h, hc⟩

end WordOf

namespace FreeName

theorem spec (n : FreeName) : n.text.toList.head?.any isNameStart = true ∧
    (∀ c ∈ n.text.toList, isNameChar c = true) ∧ isReserved n.text = false ∧
    isNative n.text = false := by
  have h := n.holds
  simp only [isFreeName, Bool.and_eq_true, Bool.not_eq_true', List.all_eq_true] at h
  exact ⟨h.1.1.1, h.1.1.2, h.1.2, h.2⟩

theorem ne_nil (n : FreeName) : n.text.toList ≠ [] := fun h => by
  have h1 := n.spec.1
  rw [h] at h1
  cases h1

theorem isPlain (n : FreeName) : n.lexeme.isPlain = true :=
  WordOf.isPlain n n.ne_nil n.spec.2.1

theorem startsWithDigit {n : FreeName} {t : Token} (h : t.text = n.text) :
    t.startsWithDigit = false := by
  have hn := n.spec.1
  rw [Token.startsWithDigit, h]
  cases hl : n.text.toList with
  | nil => rfl
  | cons c r =>
    rw [hl] at hn
    simp only [List.head?_cons, Option.any_some, isNameStart, Bool.or_eq_true, Bool.and_eq_true,
      decide_eq_true_eq, beq_iff_eq] at hn
    simp only [List.head?_cons, Option.any_some, Token.isDigit, Bool.and_eq_false_iff,
      decide_eq_false_iff_not]
    omega

theorem isName {n : FreeName} {t : Token} (hk : t.kind = .word) (ht : t.text = n.text) :
    t.isName = true := by
  rw [Token.isName, hk, startsWithDigit ht]
  rfl

end FreeName

theorem nativeWord_spec (w : NativeWord) :
    (w.text.toList ≠ [] ∧ ∀ c ∈ w.text.toList, isNameChar c = true) ∧
      ¬w.text.toList.head?.any Token.isDigit := by
  have h : w.text ∈ nativeWords := by simpa [isNative] using w.holds
  have hall : ∀ x ∈ nativeWords, (x.toList ≠ [] ∧ ∀ c ∈ x.toList, isNameChar c = true) ∧
      ¬x.toList.head?.any Token.isDigit := by decide
  exact hall _ h

theorem numberWord_spec (w : NumberWord) : w.text.toList.head?.any Token.isDigit = true ∧
    ∀ c ∈ w.text.toList, isNameChar c = true := by
  have h := w.holds
  simp only [isNumber, Bool.and_eq_true, List.all_eq_true] at h
  exact h

section

variable {rest ts : List Token} {ls : List Lexeme} {n : FreeName}

theorem name?_spells (h : Spells rest (n.lexeme :: ls) ts) :
    ∃ us, Spells rest ls us ∧ Declaration.name? ts = some (n.text, us) := by
  obtain ⟨t, us, rfl, hk, ht, h⟩ := h.uncons
  refine ⟨us, h, ?_⟩
  rw [Declaration.name?, if_pos (FreeName.isName hk ht)]
  exact congrArg _ (congrArg (·, us) ht)

theorem freeName?_spells (h : Spells rest (n.lexeme :: ls) ts) :
    ∃ us, Spells rest ls us ∧ freeName? ts = some (n.text, us) := by
  obtain ⟨us, hu, hn⟩ := name?_spells h
  refine ⟨us, hu, ?_⟩
  rw [freeName?, hn, Option.filter_some, n.spec.2.2.1]
  rfl

end

/-! ## Lists with commas -/

theorem commas_cons (item : List Lexeme) (items : List (List Lexeme)) :
    commas (item :: items) =
      item ++ if items.isEmpty then [] else .mark "," :: commas items := by
  cases items with
  | nil => simp [commas, List.intercalate]
  | cons i is => simp [commas, List.intercalate_cons_cons]

section

variable {α : Type} {item : Reader α} {close : String} {rest ts mid : List Token} {a : α}
  {ls : List Lexeme}

theorem commaList_last (hc : close ≠ ",") (hitem : item ts = some (a, mid))
    (hm : Spells rest (.mark close :: ls) mid) :
    ∃ r, Spells rest ls r ∧ commaList item close ts = some ([a], r) := by
  obtain ⟨r, hr, hs⟩ := hm.skip?_self
  have hs : skip? close mid = some r := hs
  refine ⟨r, hr, ?_⟩
  rw [commaList, hitem]
  simp only [hm.skip?_ne hc, hs, Option.map_some]

theorem commaList_more (hi : Advances item) (hitem : item ts = some (a, mid))
    (hm : Spells rest (.mark "," :: ls) mid) :
    ∃ r, Spells rest ls r ∧
      commaList item close ts = (commaList item close r).map fun (as, q) => (a :: as, q) := by
  obtain ⟨r, hr, hs⟩ := hm.skip?_self
  have hs : skip? "," mid = some r := hs
  have hlt : r.length < ts.length := by
    have h1 := hi hitem
    have h2 := suffix_of_skip? hs
    omega
  refine ⟨r, hr, ?_⟩
  rw [commaList, hitem]
  simp only [hs, if_pos hlt]

/-- A list with commas is read when its first item and the others are. -/
theorem commaList_cons {lexemes : List Lexeme} {items : List (List Lexeme)} {as : List α}
    (hi : Advances item) (hc : close ≠ ",") (he : items = [] → as = [])
    (hitem : ∀ mark ∈ [",", close], ∀ mid ms, Spells rest (.mark mark :: ms) mid →
      Spells mid lexemes ts → item ts = some (a, mid))
    (hlist : items ≠ [] → ∀ us, Spells rest (commas items ++ .mark close :: ls) us →
      ∃ r, Spells rest ls r ∧ commaList item close us = some (as, r))
    (h : Spells rest (commas (lexemes :: items) ++ .mark close :: ls) ts) :
    ∃ r, Spells rest ls r ∧ commaList item close ts = some (a :: as, r) := by
  rw [commas_cons, List.append_assoc] at h
  obtain ⟨mid, h1, h2⟩ := h.split
  cases items with
  | nil =>
    rw [he rfl]
    exact commaList_last hc (hitem close (by simp) mid ls h2 h1) h2
  | cons i is =>
    obtain ⟨r, hr, hl⟩ :=
      @commaList_more _ _ close _ _ _ _ _ hi (hitem "," (by simp) mid _ h2 h1) h2
    obtain ⟨q, hq, hl'⟩ := hlist (by simp) r hr
    exact ⟨q, hq, by rw [hl, hl']; rfl⟩

/-- A list with commas is read when its items are, each before a comma or the end of the list. -/
theorem commaList_spells {β : Type} {lexemes : β → List Lexeme} {value : β → α}
    (hi : Advances item) (hc : close ≠ ",") {xs : List β} (hne : xs ≠ [])
    (hx : ∀ x ∈ xs, ∀ mark ∈ [",", close], ∀ ts mid ms, Spells rest (.mark mark :: ms) mid →
      Spells mid (lexemes x) ts → item ts = some (value x, mid))
    (h : Spells rest (commas (xs.map lexemes) ++ .mark close :: ls) ts) :
    ∃ r, Spells rest ls r ∧ commaList item close ts = some (xs.map value, r) := by
  induction xs generalizing ts with
  | nil => exact absurd rfl hne
  | cons x xs ih =>
    refine commaList_cons hi hc (by simp) (fun mark hm => hx x List.mem_cons_self mark hm ts)
      (fun hne us hu => ?_) h
    exact ih (by simpa using hne) (fun y hy => hx y (List.mem_cons_of_mem _ hy)) hu

end

end HeaderOutline
