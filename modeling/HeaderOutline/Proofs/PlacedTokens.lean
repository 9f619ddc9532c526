import HeaderOutline.Proofs.BraceScan
import Mathlib.Data.List.TakeWhile
/-!
# Tokens in their places

`placed` gives every token of a text with the place where it begins. What is in a literal can be
told from these places, and also by one pass over the characters with a mode for quotes; the two
agree, whatever the text is, also where a literal is never closed.

Results:
* `map_token_placed`: the tokens in their places are those of the text.
* `literalMarks_eq`: the characters in literal tokens are those that the pass finds quoted.
* `exists_literal_of_after`: a character behind which the pass is still inside a literal stands with
  the next one in one literal token.
-/
namespace HeaderOutline
open Text

/-! ## Marks of a pass over the characters -/

/-- The characters of a text that begins in the mode; each is marked when it belongs to a literal,
the quotes at its ends included. -/
def QuoteMode.marks : QuoteMode → List Char → List (Char × Bool)
  | _, [] => []
  | m, c :: r => (c, m != .code || isQuote c) :: marks (m.next c) r

theorem QuoteMode.marks_append (m : QuoteMode) (as bs : List Char) :
    m.marks (as ++ bs) = m.marks as ++ (m.after as).marks bs := by
  induction as generalizing m with
  | nil => rfl
  | cons c as ih => rw [List.cons_append, marks, marks, ih]; rfl

theorem QuoteMode.map_fst_marks (m : QuoteMode) (cs : List Char) :
    (m.marks cs).map (·.1) = cs := by
  induction cs generalizing m with
  | nil => rfl
  | cons c cs ih => rw [marks, List.map_cons, ih]

theorem QuoteMode.next_of_isQuote {c : Char} (h : isQuote c = false) : code.next c = code := by
  rw [next, h]
  rfl

theorem QuoteMode.marks_code {cs : List Char} (h : ∀ c ∈ cs, isQuote c = false) :
    code.marks cs = cs.map (·, false) := by
  induction cs with
  | nil => rfl
  | cons c cs ih =>
    obtain ⟨hc, hcs⟩ := List.forall_mem_cons.mp h
    rw [marks, next_of_isQuote hc, ih hcs, List.map_cons, hc]
    rfl

theorem QuoteMode.after_code {cs : List Char} (h : ∀ c ∈ cs, isQuote c = false) :
    code.after cs = code := by
  induction cs with
  | nil => rfl
  | cons c cs ih =>
    obtain ⟨hc, hcs⟩ := List.forall_mem_cons.mp h
    show (code.next c).after cs = code
    rw [next_of_isQuote hc, ih hcs]

theorem isQuote_of_isSpace {c : Char} (h : isSpace c = true) : isQuote c = false :=
  (isPlain_iff.mp (isPlain_of_isSpace h)).2

namespace Token

/-- The characters of a literal behind its quote belong to it. -/
theorem marks_literalRest {q : Char} (hq : isQuote q = true) (cs : List Char) :
    (QuoteMode.quoted q).marks (literalRest q cs).1 = (literalRest q cs).1.map (·, true) := by
  have hb : q ≠ '\\' := by rintro rfl; revert hq; decide
  fun_induction literalRest q cs with
  | case1 => rfl
  | case2 c r inner rest heq ih =>
    rw [heq] at ih
    simpa [QuoteMode.marks, QuoteMode.next] using ih
  | case3 r _ => simp [QuoteMode.marks]
  | case4 c r hno hc inner rest heq ih =>
    rw [heq] at ih
    by_cases hc' : c = '\\'
    · -- A backslash with nothing behind it ends the text.
      subst hc'
      cases r with
      | nil => cases heq; rfl
      | cons d r => exact absurd rfl (hno d r rfl)
    · simpa [QuoteMode.marks, QuoteMode.next, hc, hc'] using ih

/-- The characters of a token are in a literal if the token is one. -/
theorem marks_lexeme (c : Char) (r : List Char) :
    QuoteMode.code.marks (lexeme c r).2.1 =
      (lexeme c r).2.1.map (·, (lexeme c r).1 == .literal) := by
  unfold lexeme
  split
  · next hc =>
    refine QuoteMode.marks_code fun d hd => ?_
    have hd : isNameChar d = true := by
      rcases List.mem_cons.mp hd with rfl | hd
      · exact hc
      · exact List.all_eq_true.mp List.all_takeWhile d hd
    exact (isPlain_iff.mp (isPlain_of_isNameChar hd)).2
  · split
    · next hq =>
      show (c, _) :: QuoteMode.marks _ _ = _
      rw [QuoteMode.next, if_pos hq, marks_literalRest hq, hq]
      rfl
    · next hq =>
      have hq : isQuote c = false := Bool.eq_false_iff.mpr hq
      split
      · exact QuoteMode.marks_code (show ∀ d ∈ [':', ':'], isQuote d = false by decide)
      · exact QuoteMode.marks_code (show ∀ d ∈ ['.', '.', '.'], isQuote d = false by decide)
      · exact QuoteMode.marks_code (by simpa using hq)

/-- What is in front of the first token, the token, and the mode behind it. -/
theorem marks_next? {cs rest : List Char} {t : Token} (h : next? cs = some (t, rest)) :
    QuoteMode.code.marks cs = (cs.takeWhile isSpace).map (·, false) ++
      (t.text.toList.map (·, t.kind == .literal) ++ QuoteMode.code.marks rest) := by
  have happ := append_of_next? h
  have hs : ∀ c ∈ cs.takeWhile isSpace, isQuote c = false := fun c hc =>
    isQuote_of_isSpace (List.all_eq_true.mp List.all_takeWhile c hc)
  have htext : QuoteMode.code.marks t.text.toList = t.text.toList.map (·, t.kind == .literal) ∧
      (rest ≠ [] → LiteralsEnd t.text.toList) := by
    obtain ⟨c, r, -, rfl, rfl⟩ := exists_lexeme_of_next? h
    rw [String.toList_ofList]
    exact ⟨marks_lexeme c r, (scan_lexeme c r).2⟩
  conv => lhs; rw [← happ]
  rw [QuoteMode.marks_append, QuoteMode.marks_append, QuoteMode.marks_code hs,
    QuoteMode.after_code hs, htext.1]
  by_cases hr : rest = []
  · rw [hr]
    rfl
  · rw [htext.2 hr]

/-! ## Places -/

/-- A token and the place where it begins. -/
structure Placed where
  token : Token
  start : Nat
  deriving DecidableEq, Repr

def Placed.stop (p : Placed) : Nat :=
  p.start + p.token.text.toList.length

def Placed.covers (i : Nat) (p : Placed) : Bool :=
  p.start ≤ i && i < p.stop

/-- The tokens of a text in their places, when it begins at the place `n`. -/
def placed (n : Nat) (cs : List Char) : List Placed :=
  match _h : next? cs with
  | none => []
  | some (t, rest) =>
    let start := n + (cs.takeWhile isSpace).length
    ⟨t, start⟩ :: placed (start + t.text.toList.length) rest
termination_by cs.length
decreasing_by exact length_of_next? _h

theorem placed_of_next?_none {cs : List Char} (h : next? cs = none) (n : Nat) :
    placed n cs = [] := by
  rw [placed]
  split
  · rfl
  · next h' => rw [h] at h'; cases h'

theorem placed_of_next? {cs rest : List Char} {t : Token} (h : next? cs = some (t, rest))
    (n : Nat) : placed n cs = ⟨t, n + (cs.takeWhile isSpace).length⟩ ::
      placed (n + (cs.takeWhile isSpace).length + t.text.toList.length) rest := by
  rw [placed]
  split
  · next h' => rw [h] at h'; cases h'
  · next h' => rw [h] at h'; cases h'; rfl

/-- The tokens in their places are those of the text. -/
theorem map_token_placed (n : Nat) (cs : List Char) :
    (placed n cs).map (·.token) = tokens cs := by
  fun_induction tokens cs generalizing n with
  | case1 cs hn => rw [placed_of_next?_none hn]; rfl
  | case2 cs t rest hn ih => rw [placed_of_next? hn, List.map_cons, ih]

theorem le_start_of_mem_placed {n : Nat} {cs : List Char} {p : Placed} (h : p ∈ placed n cs) :
    n ≤ p.start := by
  fun_induction tokens cs generalizing n with
  | case1 cs hn => rw [placed_of_next?_none hn] at h; cases h
  | case2 cs t rest hn ih =>
    rw [placed_of_next? hn] at h
    rcases List.mem_cons.mp h with rfl | h
    · exact Nat.le_add_right ..
    · have := ih h
      omega

/-! ## Literals -/

def isLiteralAt (i : Nat) (ps : List Placed) : Bool :=
  ps.any fun p => p.token.kind == .literal && p.covers i

/-- The characters of a text, each marked when it is in a literal token. -/
def literalMarks (cs : List Char) : List (Char × Bool) :=
  cs.mapIdx fun i c => (c, isLiteralAt i (placed 0 cs))

theorem isLiteralAt_placed {i n : Nat} (h : i < n) (cs : List Char) :
    isLiteralAt i (placed n cs) = false := by
  refine List.any_eq_false.mpr fun p hp hc => ?_
  have := le_start_of_mem_placed hp
  simp only [Placed.covers, Bool.and_eq_true, decide_eq_true_eq] at hc
  omega

theorem mapIdx_const {α β : Type} {f : Nat → α → β} {g : α → β} {xs : List α}
    (h : ∀ i < xs.length, ∀ x, f i x = g x) : xs.mapIdx f = xs.map g := by
  refine List.ext_getElem (by simp) fun i h1 _ => ?_
  simp only [List.length_mapIdx] at h1
  simp [h i h1]

/-- The characters in literal tokens, when the text begins at a place. -/
theorem mapIdx_isLiteralAt (n : Nat) (cs : List Char) :
    cs.mapIdx (fun i c => (c, isLiteralAt (n + i) (placed n cs))) = QuoteMode.code.marks cs := by
  fun_induction tokens cs generalizing n with
  | case1 cs hn =>
    rw [placed_of_next?_none hn, QuoteMode.marks_code fun c hc =>
      isQuote_of_isSpace (isSpace_of_next?_none hn c hc)]
    exact mapIdx_const fun _ _ _ => rfl
  | case2 cs t rest hn ih =>
    rw [placed_of_next? hn, marks_next? hn]
    generalize hk : cs.takeWhile isSpace = sp
    have happ := append_of_next? hn
    rw [hk] at happ
    have hhead : ∀ i, isLiteralAt i
        (⟨t, n + sp.length⟩ :: placed (n + sp.length + t.text.toList.length) rest) =
          (t.kind == .literal && (n + sp.length ≤ i && i < n + sp.length + t.text.toList.length) ||
            isLiteralAt i (placed (n + sp.length + t.text.toList.length) rest)) := fun i => rfl
    conv => lhs; rw [← happ]
    rw [List.mapIdx_append, List.mapIdx_append]
    congr 1
    · -- The spaces in front.
      refine mapIdx_const fun i hi c => ?_
      rw [hhead, isLiteralAt_placed (by omega)]
      simp [show ¬ n + sp.length ≤ n + i by omega]
    congr 1
    · -- The token.
      refine mapIdx_const fun i hi c => ?_
      rw [hhead, isLiteralAt_placed (by omega)]
      simp [show n + sp.length ≤ n + (i + sp.length) by omega,
        show n + (i + sp.length) < n + sp.length + t.text.toList.length by omega]
    · -- What follows it.
      rw [← ih (n + sp.length + t.text.toList.length)]
      congr 1
      funext i c
      have hi : n + (i + t.text.toList.length + sp.length) =
          n + sp.length + t.text.toList.length + i := by omega
      rw [hhead, hi, decide_eq_false (p := _ < _) (by omega), Bool.and_false, Bool.and_false,
        Bool.false_or]

/-- The characters in literal tokens are those that a pass with a mode for quotes finds quoted. -/
theorem literalMarks_eq (cs : List Char) : literalMarks cs = QuoteMode.code.marks cs := by
  have h := mapIdx_isLiteralAt 0 cs
  simp only [Nat.zero_add] at h
  exact h

/-- A literal that does not end the text ends with its quote. -/
theorem getLast?_literalRest {q : Char} {cs : List Char} (h : (literalRest q cs).2 ≠ []) :
    (literalRest q cs).1.getLast? = some q := by
  fun_induction literalRest q cs with
  | case1 => exact absurd rfl h
  | case2 c r inner rest heq ih =>
    rw [heq] at ih
    rw [List.getLast?_cons_cons, List.getLast?_cons, ih h]
    rfl
  | case3 r _ => rfl
  | case4 c r hno hc inner rest heq ih =>
    rw [heq] at ih
    rw [List.getLast?_cons, ih h]
    rfl

theorem isQuote_getLast?_of_next? {cs rest : List Char} {t : Token}
    (h : next? cs = some (t, rest)) (hkind : t.kind = .literal) (hrest : rest ≠ []) :
    t.text.toList.getLast?.any isQuote = true := by
  obtain ⟨c, r, -, rfl, rfl⟩ := exists_lexeme_of_next? h
  rw [String.toList_ofList]
  revert hkind hrest
  unfold lexeme
  split
  · intro hk
    cases hk
  · split
    · next hq =>
      intro _ hrest
      rw [List.getLast?_cons, getLast?_literalRest hrest]
      exact hq
    · split <;> (intro hk; cases hk)

/-- A character of a literal that is no quote has the next character of the text in the literal. -/
theorem lt_stop_of_covers {n i : Nat} {cs : List Char} {p : Placed} {x : Char}
    (hp : p ∈ placed n cs) (hkind : p.token.kind = .literal) (hc : p.covers (n + i) = true)
    (hx : cs[i]? = some x) (hq : isQuote x = false) (hlen : i + 1 < cs.length) :
    n + i + 1 < p.stop := by
  simp only [Placed.covers, Bool.and_eq_true, decide_eq_true_eq] at hc
  fun_induction tokens cs generalizing n i with
  | case1 cs hn => rw [placed_of_next?_none hn] at hp; cases hp
  | case2 cs t rest hn ih =>
    rw [placed_of_next? hn] at hp
    have happ := append_of_next? hn
    generalize cs.takeWhile isSpace = sp at hp happ
    have hcs : cs.length = sp.length + (t.text.toList.length + rest.length) := by
      rw [← happ, List.length_append, List.length_append]
    rcases List.mem_cons.mp hp with rfl | hp
    · simp only [Placed.stop] at hc ⊢
      by_contra hge
      -- The character ends the token, which is not the last one.
      have hlast : i = sp.length + (t.text.toList.length - 1) := by omega
      have hpos : 0 < t.text.toList.length := by omega
      have hrest : rest ≠ [] := fun hnil => by rw [hnil, List.length_nil] at hcs; omega
      have hend := isQuote_getLast?_of_next? hn hkind hrest
      rw [← happ, hlast, List.getElem?_append_right (Nat.le_add_right ..), Nat.add_sub_cancel_left,
        List.getElem?_append_left (by omega), ← List.getLast?_eq_getElem?] at hx
      rw [hx, Option.any_some, hq] at hend
      cases hend
    · have hle := le_start_of_mem_placed hp
      obtain ⟨j, rfl⟩ : ∃ j, i = sp.length + (t.text.toList.length + j) :=
        ⟨i - sp.length - t.text.toList.length, by omega⟩
      rw [← happ, List.getElem?_append_right (Nat.le_add_right ..), Nat.add_sub_cancel_left,
        List.getElem?_append_right (Nat.le_add_right ..), Nat.add_sub_cancel_left] at hx
      have := ih hp (i := j) hx (by omega) (by omega)
      omega

/-- Two characters in a row, where a literal is open and the first does not close it, are in one
literal token. -/
theorem exists_literal_of_after {as bs : List Char} {x y : Char}
    (h : QuoteMode.code.after as ≠ .code) (hx : isQuote x = false) :
    ∃ p ∈ placed 0 (as ++ x :: y :: bs), p.token.kind = .literal ∧ p.start ≤ as.length ∧
      as.length + 2 ≤ p.stop := by
  have hmarks := congrArg (·[as.length]?) (literalMarks_eq (as ++ x :: y :: bs))
  have hlen : (QuoteMode.code.marks as).length = as.length := by
    rw [← List.length_map (f := (·.1)), QuoteMode.map_fst_marks]
  simp only [literalMarks, List.getElem?_mapIdx, QuoteMode.marks_append, QuoteMode.marks,
    List.getElem?_append_right (Nat.le_refl as.length), Nat.sub_self, List.getElem?_cons_zero,
    Option.map_some] at hmarks
  rw [List.getElem?_append_right (Nat.le_of_eq hlen), hlen, Nat.sub_self,
    List.getElem?_cons_zero, Option.some.injEq, Prod.mk.injEq, hx, Bool.or_false,
    bne_iff_ne.mpr h] at hmarks
  obtain ⟨p, hp, hpc⟩ := List.any_eq_true.mp hmarks.2
  rw [Bool.and_eq_true, beq_iff_eq] at hpc
  have hstop := lt_stop_of_covers hp hpc.1 (i := as.length) (by rw [Nat.zero_add]; exact hpc.2)
    (by simp) hx (by simp)
  refine ⟨p, hp, hpc.1, ?_, by omega⟩
  have := hpc.2
  simp only [Placed.covers, Bool.and_eq_true, decide_eq_true_eq] at this
  exact this.1

end Token

end HeaderOutline
