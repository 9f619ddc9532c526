import HeaderOutline.Proofs.LineBreaks
import HeaderOutline.Proofs.TerminatedReaders
/-!
# What follows a semicolon

A declaration that a semicolon ends is recognized by the text through the semicolon alone. Whatever
follows there, be it malformed, the same rule matches, with the same construct, and leaves just what
follows.

Three things could fail. A token in front of the semicolon might go on behind it: only a literal
that is not closed does, and that would have taken the semicolon. The reader might look at what it
leaves (`EndsAt` says that it does not). And an earlier rule might take the longer text: a rule for
declarations would then have to be the same rule, and the rules on text go by the front of it.

Results:
* `next?_exchange`, `Lexes.through_semicolon`: the tokens through a semicolon.
* `Rule.recognize?_terminated`: the rule that recognizes the declaration.
* `Rule.match?_terminated`: the first rule that does.
-/
namespace HeaderOutline
open Text Declaration Token

/-! ## Tokens through a semicolon -/

/-- A token that ends in front of a semicolon is the same whatever follows that. -/
theorem lexeme_exchange {c : Char} {w g rest : List Char} {kind : TokenKind}
    (h : lexeme c (w ++ (g ++ ';' :: rest)) = (kind, c :: w, g ++ ';' :: rest)) (s : List Char) :
    lexeme c (w ++ (g ++ ';' :: s)) = (kind, c :: w, g ++ ';' :: s) := by
  have hliteral : ∀ ds, isQuote c = true → literalRest c ((w ++ g) ++ ';' :: ds) =
      ((literalRest c (w ++ g)).1, (literalRest c (w ++ g)).2 ++ ';' :: ds) := by
    intro ds hq
    have hname := isNameChar_of_isQuote hq
    have hslash : c ≠ '\\' := by rintro rfl; revert hq; decide
    simp only [lexeme, hname, hq, Bool.false_eq_true, if_false, if_true, Prod.mk.injEq,
      List.cons.injEq, true_and] at h
    -- The literal is closed, since it leaves something.
    have hclosed := (scan_literalRest hslash (w ++ (g ++ ';' :: rest))).2 (by simp [h.2.2])
    rw [h.2.1] at hclosed
    rw [List.append_assoc, literalRest_append hslash hclosed, literalRest_append hslash hclosed,
      List.append_assoc]
  have happend : ∀ ds, lexeme c (w ++ (g ++ ';' :: ds)) =
      ((lexeme c (w ++ g)).1, (lexeme c (w ++ g)).2.1, (lexeme c (w ++ g)).2.2 ++ ';' :: ds) :=
    fun ds => by
      rw [← List.append_assoc]
      exact lexeme_append (by decide) (by decide) (hliteral ds)
  rw [happend] at h ⊢
  simp only [Prod.mk.injEq, List.append_cancel_right_eq] at h
  rw [h.1, h.2.1, h.2.2]

/-- The first token of a text that begins with a character behind some spaces. -/
theorem next?_spaces {gap : List Char} (hgap : ∀ e ∈ gap, isSpace e = true) {c : Char}
    (hc : isSpace c = false) (r : List Char) :
    next? (gap ++ c :: r) =
      some (⟨(lexeme c r).1, String.ofList (lexeme c r).2.1, !gap.isEmpty⟩, (lexeme c r).2.2) := by
  have hd : (gap ++ c :: r).dropWhile isSpace = c :: r := by
    rw [List.dropWhile_append_of_pos hgap, List.dropWhile_cons, if_neg (by simp [hc])]
  have hhead : (gap ++ c :: r).head?.any isSpace = !gap.isEmpty := by
    cases gap with
    | nil => simp [hc]
    | cons e gap => simp [hgap e List.mem_cons_self]
  simp only [next?, hd, hhead]

/-- A text with a first token is some spaces and what the token begins with. -/
theorem exists_spaces {cs rest : List Char} {t : Token} (h : next? cs = some (t, rest)) :
    ∃ gap c r, cs = gap ++ c :: r ∧ (∀ e ∈ gap, isSpace e = true) ∧ isSpace c = false := by
  obtain ⟨c, r, hd, -, -⟩ := exists_lexeme_of_next? h
  refine ⟨cs.takeWhile isSpace, c, r, ?_, fun e he => ?_, ?_⟩
  · rw [← hd, List.takeWhile_append_dropWhile]
  · exact List.all_eq_true.mp List.all_takeWhile e he
  · have hhead := List.head?_dropWhile_not isSpace cs
    rwa [hd] at hhead

/-- The first token, when it ends in front of a semicolon, is the same whatever follows that. -/
theorem next?_exchange {cs g rest : List Char} {t : Token}
    (h : next? cs = some (t, g ++ ';' :: rest)) :
    ∃ f, cs = f ++ (g ++ ';' :: rest) ∧
      ∀ s, next? (f ++ (g ++ ';' :: s)) = some (t, g ++ ';' :: s) := by
  obtain ⟨gap, c, r, rfl, hgap, hc⟩ := exists_spaces h
  rw [next?_spaces hgap hc, Option.some.injEq, Prod.mk.injEq] at h
  obtain ⟨rfl, hrest⟩ := h
  have happend := append_lexeme c r
  obtain ⟨e, w, hw⟩ := List.exists_cons_of_ne_nil (lexeme_ne_nil c r)
  rw [hw, hrest, List.cons_append] at happend
  obtain ⟨rfl, rfl⟩ := List.cons.inj happend
  have hx : lexeme e (w ++ (g ++ ';' :: rest)) = ((lexeme e (w ++ (g ++ ';' :: rest))).1, e :: w,
      g ++ ';' :: rest) := Prod.ext rfl (Prod.ext hw hrest)
  refine ⟨gap ++ e :: w, by simp, fun s => ?_⟩
  rw [List.append_assoc, List.cons_append, next?_spaces hgap hc, lexeme_exchange hx s, hw]

theorem next?_semicolon {cs rest : List Char} {t : Token} (h : next? cs = some (t, rest))
    (ht : t.text = ";") :
    ∃ f, cs = f ++ ';' :: rest ∧ ∀ s, next? (f ++ ';' :: s) = some (t, s) := by
  have hcs := append_of_next? h
  rw [ht] at hcs
  have hgap : ∀ e ∈ cs.takeWhile isSpace, isSpace e = true := fun e he =>
    List.all_eq_true.mp List.all_takeWhile e he
  have hnext : ∀ s, next? (cs.takeWhile isSpace ++ ';' :: s) =
      some (⟨.mark, ";", !(cs.takeWhile isSpace).isEmpty⟩, s) := fun s =>
    next?_spaces hgap (by decide) s
  have hsame := (hnext rest).symm.trans ((congrArg next? hcs).trans h)
  obtain ⟨rfl, -⟩ := Prod.mk.inj (Option.some.inj hsame)
  exact ⟨cs.takeWhile isSpace, hcs.symm, hnext⟩

namespace Lexes

/-- The tokens through a semicolon are the same whatever follows it. -/
theorem through_semicolon {cs rest : List Char} {ts : List Token} {t : Token} (ht : t.text = ";")
    (h : Lexes cs (ts ++ [t]) rest) :
    ∃ f, cs = f ++ ';' :: rest ∧ ∀ s, Lexes (f ++ ';' :: s) (ts ++ [t]) s := by
  induction ts generalizing cs with
  | nil =>
    obtain _ | ⟨hn, ⟨⟩⟩ := h
    obtain ⟨f, hcs, hf⟩ := next?_semicolon hn ht
    exact ⟨f, hcs, fun s => .cons (hf s) (.nil s)⟩
  | cons u ts ih =>
    obtain _ | ⟨hn, hl⟩ := h
    obtain ⟨g, rfl, hg⟩ := ih hl
    obtain ⟨f, hcs, hf⟩ := next?_exchange hn
    refine ⟨f ++ g, by rw [hcs, List.append_assoc], fun s => ?_⟩
    rw [List.append_assoc]
    exact .cons (hf s) (hg s)

end Lexes

/-! ## Recognition -/

namespace Rule

theorem readText_terminated {α : Type} {read : Reader α} {make : α → Construct} {f : α → Bool}
    (hends : ∀ ts, EndsAt f read ts) {cs rest : List Char} {k : Construct}
    (h : readText read make cs = some (k, rest)) (hf : ∀ a, make a = k → f a = true) :
    ∃ front, cs = front ++ ';' :: rest ∧
      ∀ s, readText read make (front ++ ';' :: s) = some (k, s) := by
  obtain ⟨⟨a, r⟩, hread, heq⟩ := Option.map_eq_some_iff.mp h
  obtain ⟨rfl, rfl⟩ := Prod.mk.inj heq
  obtain ⟨t, ht, ⟨ls, hls⟩, hus⟩ := hends _ hread (hf a rfl)
  have hbare : t.bare = .mark ";" := by
    have hmem : t ∈ tokens cs := hls ▸ List.mem_append_right ls List.mem_cons_self
    have hk : t.kind = .mark :=
      kind_eq_mark hmem (c := ';') (by rw [ht]; rfl) (by decide) (by decide)
    rw [Token.bare, hk, ht]
    rfl
  have hsplit : tokens cs = (ls ++ [t]) ++ r := by rw [← hls, List.append_assoc]; rfl
  obtain ⟨rest, hl, hrest⟩ := exists_lexes hsplit
  obtain rfl : textOf r cs = rest := hrest ▸ hl.textOf
  obtain ⟨front, hcs, hfront⟩ := hl.through_semicolon ht
  refine ⟨front, hcs, fun s => ?_⟩
  have htokens : tokens (front ++ ';' :: s) = ls ++ t :: tokens s := by
    rw [(hfront s).tokens, List.append_assoc]
    rfl
  have hexchanged :
      Exchanged (t :: r) (t :: tokens s) (tokens cs) (tokens (front ++ ';' :: s)) := by
    rw [htokens, ← hls]
    exact Exchanged.here.append ls
  simp only [readText, hus hbare hexchanged, Option.map_some, (hfront s).textOf]

/-- The rule that recognizes a terminated declaration does so by the text through its semicolon. -/
theorem recognize?_terminated {className : Option String} {cs rest : List Char} {k : Construct}
    {rule : Rule} {e : Event} (h : recognize? className cs rule = some (k, rest))
    (hk : k.declEvent? = some e) :
    ∃ front, cs = front ++ ';' :: rest ∧
      ∀ s, recognize? className (front ++ ';' :: s) rule = some (k, s) := by
  have hfunction : ∀ d : Declared Signature, .function d.item d.terminated = k →
      d.terminated = true := by
    rintro ⟨item, terminated⟩ rfl
    cases terminated <;> first | rfl | cases hk
  have hr := mem_declRules h hk
  simp only [declRules, List.mem_cons, List.not_mem_nil, or_false] at hr
  rcases hr with rfl | rfl | rfl | rfl | rfl <;> simp only [recognize?] at h ⊢
  · exact readText_terminated EndsAt.callOperator? h hfunction
  · exact readText_terminated EndsAt.operator? h hfunction
  · exact readText_terminated EndsAt.function? h hfunction
  · refine readText_terminated EndsAt.destructor? h ?_
    rintro ⟨item, terminated⟩ rfl
    cases terminated <;> first | rfl | cases hk
  · obtain ⟨name, rfl, hread⟩ := Option.bind_eq_some_iff.mp h
    refine readText_terminated (EndsAt.constructor? name) hread ?_
    rintro ⟨item, terminated⟩ rfl
    cases terminated <;> first | rfl | cases hk

/-! ## Matches -/

/-- The word `enum` is found in front of a semicolon, whatever follows that. -/
theorem startsEnum_exchange {front s : List Char} (h : startsEnum (front ++ ';' :: s) = true)
    (rest : List Char) : startsEnum (front ++ ';' :: rest) = true := by
  obtain ⟨r, hr⟩ := Option.isSome_iff_exists.mp h
  have hstop : startsWord r = false := by simpa using (Option.filter_eq_some_iff.mp hr).2
  rcases List.append_eq_append_iff.mp (append_of_afterWord? hr) with ⟨x, rfl, rfl⟩ | ⟨x, hx, hs⟩
  · have hstop' : startsWord (x ++ ';' :: rest) = false := by
      cases x with
      | nil => rfl
      | cons d x => exact hstop
    rw [startsEnum, List.append_assoc, afterWord?_self hstop']
    rfl
  · cases x with
    | nil =>
      rw [List.append_nil] at hx
      rw [← hx, startsEnum, afterWord?_self rfl]
      rfl
    | cons d x =>
      obtain rfl : ';' = d := (List.cons.inj hs).1
      have hmem : ';' ∈ "enum".toList := by rw [hx]; simp
      exact absurd hmem (by decide)

/-- What is matched as a terminated declaration ends with a semicolon, and is matched alike by the
same rule whatever follows it. -/
theorem match?_terminated {context : Context} {className : Option String} {cs rest : List Char}
    {rule : Rule} {k : Construct} {e : Event}
    (h : match? context className cs = some (rule, k, rest)) (hk : k.declEvent? = some e) :
    ∃ front, cs = front ++ ';' :: rest ∧
      ∀ s, match? context className (front ++ ';' :: s) = some (rule, k, s) := by
  obtain ⟨ha, hr⟩ := recognize?_of_match? h
  have hd := mem_declRules hr hk
  obtain ⟨front, rfl, hfront⟩ := recognize?_terminated hr hk
  refine ⟨front, rfl, fun s => match?_of_declRule hd ha (hfront s) ?_⟩
  refine Bool.eq_false_iff.mpr fun henum => ?_
  have hno := not_startsEnum_of_match? h hd
  rw [startsEnum_exchange henum rest] at hno
  cases hno

/-- The signature of an operator that compares with another value. -/
def lessSignature : Signature where
  template := none
  returnType := some (.ofTokens ["bool"])
  name := "operator<"
  params := [⟨.ofTokens ["const", "T", "&"], some "other"⟩]
  isConst := true
  isStatic := false
  isVirtual := false
  specifier := none

/-- A literal is opened behind the semicolon, and parentheses follow. -/
theorem match?_terminated_openLiteral : ∃ front,
    "bool operator<(const T& other) const; \x22operator (".toList =
        front ++ ';' :: " \x22operator (".toList ∧
      ∀ s, match? .classBody (some "T") (front ++ ';' :: s) =
        some (operator, .function lessSignature true, s) :=
  match?_terminated (by decide +kernel) rfl

end Rule

end HeaderOutline
