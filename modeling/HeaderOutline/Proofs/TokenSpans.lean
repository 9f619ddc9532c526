import HeaderOutline.Proofs.PlacedTokens
import Mathlib.Data.String.Basic
/-!
# Spans of tokens

A span is a token with the places of its ends counted in bytes, so that its text can be cut out of
the text that was read. The spans come from the places of the tokens in characters; what stands in
front of a place weighs as many bytes as its characters do together.

Results:
* `exists_around`: a text is what stands in front of one of its tokens, the token, and a rest that
  holds the remaining ones.
* `isSpace_of_uncovered`: a character in no token is a space.
* `spans_textFrom`: the text behind a token has the spans of the remaining tokens.
-/
namespace HeaderOutline
open Text

namespace Token

/-! ## Around a token -/

/-- The token when `k` more characters stand in front of the text. -/
def Placed.shift (k : Nat) (p : Placed) : Placed :=
  ⟨p.token, p.start + k⟩

theorem Placed.covers_iff {i : Nat} {p : Placed} :
    p.covers i = true ↔ p.start ≤ i ∧ i < p.stop := by
  simp [Placed.covers]

theorem placed_add (n k : Nat) (cs : List Char) :
    placed (n + k) cs = (placed n cs).map (Placed.shift k) := by
  fun_induction tokens cs generalizing n with
  | case1 cs hn => rw [placed_of_next?_none hn, placed_of_next?_none hn, List.map_nil]
  | case2 cs t rest hn ih =>
    rw [placed_of_next? hn, placed_of_next? hn, List.map_cons, ← ih]
    simp only [Placed.shift, Nat.add_right_comm _ k]

/-- A text is what stands in front of a token, the token, and what the remaining ones are read
from. -/
theorem exists_around {n : Nat} {cs : List Char} {ps qs : List Placed} {p : Placed}
    (h : placed n cs = ps ++ p :: qs) :
    ∃ front rest, cs = front ++ (p.token.text.toList ++ rest) ∧ p.start = n + front.length ∧
      p.token.text.toList ≠ [] ∧ qs = placed p.stop rest ∧
      afterTokens (ps.length + 1) cs = rest := by
  fun_induction tokens cs generalizing n ps with
  | case1 cs hn =>
    rw [placed_of_next?_none hn] at h
    exact absurd h (by simp)
  | case2 cs t rest hn ih =>
    rw [placed_of_next? hn] at h
    have happ := append_of_next? hn
    rcases List.cons_eq_append_iff.mp h with ⟨rfl, hp⟩ | ⟨ps', rfl, hps⟩
    · obtain ⟨rfl, rfl⟩ := List.cons.inj hp
      refine ⟨cs.takeWhile isSpace, rest, happ.symm, rfl, text_ne_nil_of_next? hn, rfl, ?_⟩
      simp only [List.length_nil, afterTokens, hn]
    · obtain ⟨front, rest', hcs, hstart, hne, hqs, hafter⟩ := ih hps
      refine ⟨cs.takeWhile isSpace ++ (t.text.toList ++ front), rest', ?_, ?_, hne, hqs, ?_⟩
      · rw [List.append_assoc, List.append_assoc, ← hcs, happ]
      · rw [hstart, List.length_append, List.length_append, Nat.add_assoc, Nat.add_assoc]
      · simp only [List.length_cons, afterTokens, hn]
        exact hafter

/-- No token begins before another one in front of it ends. -/
theorem pairwise_placed (n : Nat) (cs : List Char) :
    (placed n cs).Pairwise fun p q => p.stop ≤ q.start := by
  fun_induction tokens cs generalizing n with
  | case1 cs hn => rw [placed_of_next?_none hn]; exact .nil
  | case2 cs t rest hn ih =>
    rw [placed_of_next? hn]
    exact .cons (fun q hq => le_start_of_mem_placed hq) (ih _)

/-- Between the tokens there are only spaces. -/
theorem isSpace_of_uncovered {n i : Nat} {cs : List Char} {c : Char} (hc : cs[i]? = some c)
    (h : ∀ p ∈ placed n cs, p.covers (n + i) = false) : isSpace c = true := by
  fun_induction tokens cs generalizing n i with
  | case1 cs hn =>
    exact isSpace_of_next?_none hn c (List.mem_of_getElem? hc)
  | case2 cs t rest hn ih =>
    rw [placed_of_next? hn] at h
    have hspaces : ∀ d ∈ cs.takeWhile isSpace, isSpace d = true :=
      fun d hd => List.all_eq_true.mp List.all_takeWhile d hd
    have happ := append_of_next? hn
    generalize cs.takeWhile isSpace = sp at h hspaces happ
    subst happ
    obtain ⟨htoken, hrest⟩ := List.forall_mem_cons.mp h
    rcases Nat.lt_or_ge i sp.length with hi | hi
    · rw [List.getElem?_append_left hi] at hc
      exact hspaces c (List.mem_of_getElem? hc)
    · -- The token covers its own characters, so the place is behind it.
      have hstop : sp.length + t.text.toList.length ≤ i := by
        by_contra hlt
        have hcover : Placed.covers (n + i) ⟨t, n + sp.length⟩ = true :=
          Placed.covers_iff.mpr ⟨Nat.add_le_add_left hi n, by simp only [Placed.stop]; omega⟩
        exact absurd hcover (Bool.eq_false_iff.mp htoken)
      obtain ⟨j, rfl⟩ : ∃ j, i = sp.length + (t.text.toList.length + j) :=
        ⟨i - sp.length - t.text.toList.length, by omega⟩
      rw [List.getElem?_append_right (Nat.le_add_right ..), Nat.add_sub_cancel_left,
        List.getElem?_append_right (Nat.le_add_right ..), Nat.add_sub_cancel_left] at hc
      refine ih (n := n + sp.length + t.text.toList.length) hc fun p hp => ?_
      rw [Nat.add_assoc, Nat.add_assoc]
      exact hrest p hp

/-! ## Places in bytes -/

def bytesBefore (cs : List Char) (i : Nat) : Nat :=
  String.utf8Len (cs.take i)

@[simp] theorem bytesBefore_zero (cs : List Char) : bytesBefore cs 0 = 0 := rfl

theorem bytesBefore_append_length (front rest : List Char) :
    bytesBefore (front ++ rest) front.length = String.utf8Len front := by
  rw [bytesBefore, List.take_left]

theorem bytesBefore_append_add (front rest : List Char) (i : Nat) :
    bytesBefore (front ++ rest) (front.length + i) =
      String.utf8Len front + bytesBefore rest i := by
  rw [bytesBefore, List.take_length_add_append, String.utf8Len_append, bytesBefore]

theorem bytesBefore_mono {i j : Nat} (h : i ≤ j) (cs : List Char) :
    bytesBefore cs i ≤ bytesBefore cs j :=
  String.utf8Len_le_of_prefix (List.take_prefix_take_left h)

theorem isValid_bytesBefore (s : String) (i : Nat) :
    String.Pos.Raw.IsValid s ⟨bytesBefore s.toList i⟩ :=
  String.Pos.Raw.isValid_iff_exists_take_toList.mpr
    ⟨i, (String.utf8ByteSize_ofList (s.toList.take i)).symm⟩

/-! ## Spans -/

/-- A token with the places, in bytes, where it begins and ends. -/
structure Span where
  kind : TokenKind
  text : String
  start : Nat
  stop : Nat
  deriving DecidableEq, Repr

def Span.shift (k : Nat) (p : Span) : Span :=
  { p with start := p.start + k, stop := p.stop + k }

/-- The span is a token; there is a space in front of it when the token before it, or the text in
front of the first one, does not end where it begins. -/
def Span.token (before : Nat) (p : Span) : Token :=
  ⟨p.kind, p.text, before < p.start⟩

def Placed.span (cs : List Char) (p : Placed) : Span :=
  ⟨p.token.kind, p.token.text, bytesBefore cs p.start, bytesBefore cs p.stop⟩

/-- The spans of the tokens of a text with `front` in front of it. -/
def spansBehind (front cs : List Char) : List Span :=
  (placed front.length cs).map (Placed.span (front ++ cs))

def spans (s : String) : List Span :=
  spansBehind [] s.toList

theorem spans_eq (s : String) : spans s = (placed 0 s.toList).map (Placed.span s.toList) :=
  rfl

theorem spansBehind_of_next?_none {cs : List Char} (h : next? cs = none) (front : List Char) :
    spansBehind front cs = [] := by
  rw [spansBehind, placed_of_next?_none h, List.map_nil]

theorem spansBehind_of_next? {cs rest : List Char} {t : Token} (h : next? cs = some (t, rest))
    (front : List Char) : spansBehind front cs =
      ⟨t.kind, t.text, String.utf8Len (front ++ cs.takeWhile isSpace),
        String.utf8Len (front ++ cs.takeWhile isSpace ++ t.text.toList)⟩ ::
      spansBehind (front ++ cs.takeWhile isSpace ++ t.text.toList) rest := by
  have happ := append_of_next? h
  rw [spansBehind, placed_of_next? h]
  generalize cs.takeWhile isSpace = sp at happ ⊢
  subst happ
  have hfront :
      front ++ (sp ++ (t.text.toList ++ rest)) = front ++ sp ++ t.text.toList ++ rest := by
    simp only [List.append_assoc]
  rw [spansBehind, List.map_cons, hfront, ← List.length_append, ← List.length_append, Placed.span,
    Placed.stop, ← List.length_append, bytesBefore_append_length, List.append_assoc (front ++ sp),
    bytesBefore_append_length]

/-- Text in front of the text shifts the spans by its bytes. -/
theorem spansBehind_eq (front cs : List Char) :
    spansBehind front cs = (spansBehind [] cs).map (Span.shift (String.utf8Len front)) := by
  rw [spansBehind, spansBehind, ← Nat.zero_add front.length, placed_add, List.map_map,
    List.map_map]
  refine List.map_congr_left fun q _ => ?_
  have hbytes : ∀ i, bytesBefore (front ++ cs) (i + front.length) =
      bytesBefore cs i + String.utf8Len front := fun i => by
    rw [Nat.add_comm i, bytesBefore_append_add, Nat.add_comm]
  simp only [Function.comp_apply, Placed.span, Span.shift, Placed.shift, Placed.stop,
    List.nil_append, ← hbytes, Nat.add_right_comm]

/-- The text from a place on, which is counted in bytes. -/
def textFrom (s : String) (n : Nat) : String :=
  String.Pos.Raw.extract s ⟨n⟩ s.rawEndPos

/-- What a text is around one of its spans. -/
structure Cuts (s : String) (n : Nat) (p : Span) (front rest : List Char) : Prop where
  append : s.toList = front ++ (p.text.toList ++ rest)
  nonempty : p.text.toList ≠ []
  start : p.start = String.utf8Len front
  stop : p.stop = String.utf8Len front + String.utf8Len p.text.toList
  behind : rest = afterTokens (n + 1) s.toList
  later : (spans s).drop (n + 1) = spansBehind (front ++ p.text.toList) rest

theorem exists_cuts {s : String} {n : Nat} {p : Span} (h : (spans s)[n]? = some p) :
    ∃ front rest, Cuts s n p front rest := by
  rw [spans_eq, List.getElem?_map, Option.map_eq_some_iff] at h
  obtain ⟨q, hq, rfl⟩ := h
  obtain ⟨hn, rfl⟩ := List.getElem?_eq_some_iff.mp hq
  have hsplit := List.take_append_drop n (placed 0 s.toList)
  rw [List.drop_eq_getElem_cons hn] at hsplit
  obtain ⟨front, rest, hcs, hstart, hne, hlater, hafter⟩ := exists_around hsplit.symm
  rw [List.length_take_of_le (Nat.le_of_lt hn)] at hafter
  rw [Nat.zero_add] at hstart
  generalize (placed 0 s.toList)[n] = q at hcs hstart hne hlater
  refine ⟨front, rest, hcs, hne, ?_, ?_, hafter.symm, ?_⟩
  · rw [Placed.span, hstart, hcs, bytesBefore_append_length]
  · simp only [Placed.span, Placed.stop, hstart, hcs, bytesBefore_append_add,
      bytesBefore_append_length]
  · show _ = spansBehind (front ++ q.token.text.toList) rest
    rw [spans_eq, ← List.map_drop, hlater, Placed.stop, hstart, spansBehind, List.length_append,
      List.append_assoc, ← hcs]

namespace Cuts

variable {s : String} {n : Nat} {p : Span} {front rest : List Char}

theorem eq_ofList (h : Cuts s n p front rest) :
    s = String.ofList (front ++ p.text.toList ++ rest) := by
  rw [List.append_assoc, ← h.append, String.ofList_toList]

theorem extract (h : Cuts s n p front rest) :
    String.Pos.Raw.extract s ⟨p.start⟩ ⟨p.stop⟩ = p.text := by
  rw [h.start, h.stop, h.eq_ofList, String.extract_of_valid, String.ofList_toList]

theorem textFrom_stop (h : Cuts s n p front rest) : textFrom s p.stop = String.ofList rest := by
  have hend : s.rawEndPos = ⟨String.utf8Len (front ++ p.text.toList) + String.utf8Len rest⟩ := by
    rw [← String.utf8Len_append, ← String.rawEndPos_ofList, ← h.eq_ofList]
  have hall := String.extract_of_valid (front ++ p.text.toList) rest []
  rw [List.append_nil, ← h.eq_ofList] at hall
  rw [textFrom, hend, h.stop, ← String.utf8Len_append, hall]

/-- The text behind a token has the spans of the remaining tokens. -/
theorem spans_textFrom (h : Cuts s n p front rest) :
    (spans (textFrom s p.stop)).map (Span.shift p.stop) = (spans s).drop (n + 1) := by
  rw [h.textFrom_stop, h.later, spansBehind_eq, h.stop, String.utf8Len_append, spans,
    String.toList_ofList]

end Cuts

end Token

end HeaderOutline
