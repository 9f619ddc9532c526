import HeaderOutline.Proofs.SteadyParameters
/-!
# Steady readers of declarations

A function, an operator, a constructor or a destructor is read alike when gaps are left out of its
tokens. The name of an operator is made of the text up to a parenthesis, spaces included: there a
gap parts words as the space does that stands in its place.

Results:
* `words_symbol`, `Continues.namedOperator?`: the names of operators.
* `Steady.function?`, `Steady.callOperator?`, `Steady.operator?`, `Steady.constructor?`,
  `Steady.destructor?`.
-/
namespace HeaderOutline
open Text Declaration Token

/-! ## Symbols of operators -/

theorem words_append_blank {b : Char} (hb : isBlank b = true) (x y : List Char) :
    words (x ++ b :: y) = words x ++ words y := by
  induction hn : x.length using Nat.strongRecOn generalizing x with
  | ind n ih =>
    cases x with
    | nil => simp only [List.nil_append, words, hb, if_true]
    | cons c x =>
      rw [List.cons_append, words, words]
      split
      · exact ih x.length (by rw [← hn]; simp) x rfl
      · have htake : (x ++ b :: y).takeWhile (fun c => !isBlank c) =
            x.takeWhile fun c => !isBlank c := by
          rw [List.takeWhile_append]
          split
          · next he => simp [hb, (List.takeWhile_sublist _).eq_of_length he]
          · rfl
        have hdrop : (x ++ b :: y).dropWhile (fun c => !isBlank c) =
            x.dropWhile (fun c => !isBlank c) ++ b :: y := by
          rw [List.dropWhile_append]
          split
          · next he => simp [List.isEmpty_iff.mp he, hb]
          · rfl
        have hlt := (List.dropWhile_suffix (l := x) fun c => !isBlank c).length_le
        rw [htake, hdrop, ih _ (by rw [← hn, List.length_cons]; omega) _ rfl, List.cons_append]

/-- Blanks part the words around them, and belong to none. -/
theorem words_append_blanks {gap : List Char} (hgap : ∀ c ∈ gap, isBlank c = true) (hne : gap ≠ [])
    (x y : List Char) : words (x ++ (gap ++ y)) = words x ++ words y := by
  have hdrop : ∀ bs : List Char, (∀ c ∈ bs, isBlank c = true) → words (bs ++ y) = words y := by
    intro bs hbs
    induction bs with
    | nil => rfl
    | cons b bs ih =>
      rw [List.cons_append, words, if_pos (hbs b List.mem_cons_self)]
      exact ih fun c hc => hbs c (List.mem_cons_of_mem _ hc)
  obtain ⟨b, gap, rfl⟩ := List.exists_cons_of_ne_nil hne
  rw [List.cons_append, words_append_blank (hgap b List.mem_cons_self),
    hdrop gap fun c hc => hgap c (List.mem_cons_of_mem _ hc)]

def lead (spaced : Bool) : List Char :=
  if spaced then [' '] else []

theorem spelled_cons (t : Token) (ts : List Token) :
    spelled (t :: ts) = lead t.spaced ++ (t.text.toList ++ spelled ts) := by
  simp [spelled, lead]

theorem isBlank_of_mem_lead {b : Bool} {c : Char} (h : c ∈ lead b) : isBlank c = true := by
  cases b with
  | false => cases h
  | true => rw [List.mem_singleton.mp h]; decide

theorem words_lead (a b : Bool) (x y : List Char) :
    words (x ++ (lead a ++ (lead b ++ y))) = words (x ++ (lead (b || a) ++ y)) := by
  have hsp : isBlank ' ' = true := by decide
  cases a <;> cases b <;> simp [lead, words_append_blank hsp, words, hsp]

/-- The symbol of an operator: the tokens before the next parenthesis. -/
def symbol (ts : List Token) : List Token :=
  ts.takeWhile (·.text ≠ "(")

/-- What stands behind the parenthesis after the symbol of an operator. -/
def afterSymbol? (ts : List Token) : Option (List Token) :=
  skip? "(" (ts.dropWhile (·.text ≠ "("))

theorem symbol_paren {t : Token} (ht : t.text = "(") (ts : List Token) :
    symbol (t :: ts) = [] ∧ afterSymbol? (t :: ts) = some ts := by
  simp [symbol, afterSymbol?, ht, skip?]

theorem symbol_cons {t : Token} (ht : t.text ≠ "(") (ts : List Token) :
    symbol (t :: ts) = t :: symbol ts ∧ afterSymbol? (t :: ts) = afterSymbol? ts := by
  simp [symbol, afterSymbol?, ht]

/-- Gaps in the symbol of an operator part its words as the spaces do that are there instead. -/
theorem words_symbol {m ts us r : List Token} {g : Bool} (hus : Continues m g ts us)
    (h : afterSymbol? ts = some r) :
    (∀ x, words (x ++ (lead g ++ spelled (symbol ts))) = words (x ++ spelled (symbol us))) ∧
      ∃ v, afterSymbol? us = some v ∧ Continues m false r v := by
  induction hus with
  | done => cases h
  | @keep g t u ts us hk ht hs hus ih =>
    by_cases hp : t.text = "("
    · obtain ⟨h1, h2⟩ := symbol_paren hp ts
      obtain ⟨h3, h4⟩ := symbol_paren (ht.trans hp) us
      rw [h2] at h
      cases h
      refine ⟨fun x => ?_, us, h4, hus⟩
      rw [h1, h3]
      have hsp : isBlank ' ' = true := by decide
      cases g <;> simp [lead, spelled, words_append_blank hsp, words]
    · obtain ⟨h1, h2⟩ := symbol_cons hp ts
      obtain ⟨h3, h4⟩ := symbol_cons (t := u) (ht ▸ hp) us
      rw [h2] at h
      obtain ⟨ihw, v, hv, hcv⟩ := ih h
      refine ⟨fun x => ?_, v, h4.trans hv, hcv⟩
      have ihw := ihw (x ++ (lead u.spaced ++ t.text.toList))
      rw [h1, h3, spelled_cons, spelled_cons, ht, words_lead, ← hs]
      simpa [lead] using ihw
  | @drop g t ts us hgap hus ih =>
    have hp : t.text ≠ "(" := ne_of_isGap hgap (by decide)
    obtain ⟨h1, h2⟩ := symbol_cons hp ts
    rw [h2] at h
    obtain ⟨ihw, v, hv, hcv⟩ := ih h
    refine ⟨fun x => ?_, v, hv, hcv⟩
    simp only [isGap, Bool.and_eq_true, Bool.not_eq_true', List.all_eq_true] at hgap
    have hblank : ∀ c ∈ lead g ++ (lead t.spaced ++ t.text.toList), isBlank c = true := by
      intro c hc
      simp only [List.mem_append] at hc
      rcases hc with hc | hc | hc
      · exact isBlank_of_mem_lead hc
      · exact isBlank_of_mem_lead hc
      · exact hgap.2 c hc
    have hne : lead g ++ (lead t.spaced ++ t.text.toList) ≠ [] := by
      simpa using fun _ _ => hgap.1.2
    have hx := words_append_blanks hblank hne x (spelled (symbol ts))
    have hy := words_append_blanks (fun c (hc : c ∈ lead true) => isBlank_of_mem_lead hc)
      (by decide) x (spelled (symbol ts))
    rw [← ihw x, hy, h1, spelled_cons, ← hx, List.append_assoc, List.append_assoc]

/-- The name of an operator and what stands behind the parenthesis after it. -/
def namedOperator? (ts : List Token) : Option (String × List Token) :=
  (skip? "operator" ts).bind fun us =>
    (operatorName? (symbol us)).bind fun name => (afterSymbol? us).map fun r => (name, r)

/-- An operator with its return type, if it has one. -/
def typedOperator? (ts : List Token) : Option ((Option TypeExpr × String) × List Token) :=
  (namedOperator? (operatorType ts).2).map fun x => (((operatorType ts).1, x.1), x.2)

/-- The name of an operator is the same without the gaps in it, whatever comes then. -/
theorem Continues.namedOperator? {m ts us r : List Token} {g : Bool} {name : String}
    (hus : Continues m g ts us) (h : namedOperator? ts = some (name, r)) :
    ∃ v, HeaderOutline.namedOperator? us = some (name, v) ∧ Continues m false r v := by
  obtain ⟨mid, h1, h2⟩ := Option.bind_eq_some_iff.mp h
  obtain ⟨name', hn, h3⟩ := Option.bind_eq_some_iff.mp h2
  obtain ⟨r', h4, heq⟩ := Option.map_eq_some_iff.mp h3
  obtain ⟨rfl, rfl⟩ := Prod.mk.inj heq
  obtain ⟨v1, hv1, hc1⟩ := hus.skip? h1 (by decide)
  obtain ⟨hw, v2, hv2, hc2⟩ := words_symbol hc1 h4
  have hw : words (spelled (symbol mid)) = words (spelled (symbol v1)) := hw []
  have hname : operatorName? (symbol v1) = some name' := by
    rw [← hn, operatorName?, operatorName?, hw]
  exact ⟨v2, by simp [HeaderOutline.namedOperator?, hv1, hname, hv2], hc2⟩

theorem type?_none {t : Token} (hc : t.text ≠ "const") (hr : t.text ≠ "::")
    (hn : isNative t.text = false) (hf : t.isName = true → isReserved t.text = true)
    (ts : List Token) : type? (t :: ts) = none := by
  have hfree : freeName? (t :: ts) = none := by
    rw [freeName?, Declaration.name?]
    cases hname : t.isName with
    | false => rfl
    | true => simp [hf hname]
  rw [type?_eq]
  simp [typeFront?, bareType?, qualifiedName?, skipOptional, skip?, startsWith, hc, hr, hn, hfree]

theorem type?_reserved {t : Token} (h : isReserved t.text = true) (hc : t.text ≠ "const")
    (ts : List Token) : type? (t :: ts) = none := by
  have hall : ∀ w ∈ reservedWords, isNative w = false ∧ w ≠ "::" := by decide
  obtain ⟨hn, hroot⟩ := hall t.text (by simpa [isReserved] using h)
  exact type?_none hc hroot hn (fun _ => h) ts

theorem operatorType_cases (ts : List Token) :
    (∃ type, type? ts = some (type, (operatorType ts).2) ∧
      (operatorType ts).1 = some type ∧ startsWith "operator" (operatorType ts).2 = true) ∨
    operatorType ts = (none, ts) := by
  unfold operatorType
  cases type? ts with
  | none => exact .inr rfl
  | some x =>
    obtain ⟨type, rest⟩ := x
    by_cases hs : startsWith "operator" rest = true
    · simp only [hs, if_true]
      exact .inl ⟨type, rfl, rfl, trivial⟩
    · simp only [hs]
      exact .inr rfl

theorem operatorType_named {ts r : List Token} {name : String}
    (h : namedOperator? ts = some (name, r)) : operatorType ts = (none, ts) := by
  obtain ⟨mid, hs, -⟩ := Option.bind_eq_some_iff.mp h
  obtain ⟨t, rfl, ht⟩ := skip?_eq_some.mp hs
  simp [operatorType, type?_reserved (t := t) (by rw [ht]; decide) (by rw [ht]; decide)]

namespace Steady

theorem namedOperator? (m : List Token) : Steady m namedOperator? := by
  intro ts a r h _
  obtain ⟨mid, h1, -⟩ := Option.bind_eq_some_iff.mp h
  refine ⟨.of_skip?_ne (by decide) (by decide) h1, fun g us hus => ?_⟩
  obtain ⟨v, hv, hcv⟩ := hus.namedOperator? h
  exact ⟨false, v, hv, hcv⟩

theorem typedOperator? (m : List Token) : Steady m typedOperator? := by
  intro ts a r h ha
  obtain ⟨⟨name, r'⟩, h1, heq⟩ := Option.map_eq_some_iff.mp h
  obtain ⟨rfl, rfl⟩ := Prod.mk.inj heq
  obtain ⟨hmid, hv⟩ := namedOperator? m _ h1 ha
  -- Without a return type there is none to read when gaps are left out either.
  rcases operatorType_cases ts with ⟨type, ht, htype, hs⟩ | hnone
  · obtain ⟨hts, htv⟩ := type? m ts ht hmid
    refine ⟨hts, fun g us hus => ?_⟩
    obtain ⟨g1, v1, hv1, hc1⟩ := htv hus
    obtain ⟨g2, v2, hv2, hc2⟩ := hv hc1
    refine ⟨g2, v2, ?_, hc2⟩
    obtain ⟨rest, hs⟩ := Option.isSome_iff_exists.mp hs
    obtain ⟨w, hw, -⟩ := hc1.skip? hs (by decide)
    have hop : operatorType us = (some type, v1) := by
      simp [operatorType, hv1, startsWith, hw]
    rw [HeaderOutline.typedOperator?, hop, hv2, htype]
    rfl
  · rw [hnone] at h1 hmid hv
    refine ⟨hmid, fun g us hus => ?_⟩
    obtain ⟨g2, v2, hv2, hc2⟩ := hv hus
    refine ⟨g2, v2, ?_, hc2⟩
    rw [HeaderOutline.typedOperator?, operatorType_named hv2, hv2, hnone]
    rfl

/-! ## Declarations -/

theorem function? (m : List Token) : Steady m function? := by
  intro ts
  exact ((front? m ts).bind fun front r1 _ => (type? m r1).bind fun type r2 _ =>
    (qualifiedName? m r2).bind fun name r3 _ => SteadyAt.skip "(" (by decide) fun r4 _ =>
      (parametersAndTail? m r4).bind fun x r5 _ =>
        SteadyAt.pure m (assemble front (some type) name x.1 x.2) r5).congr fun us => rfl

theorem callOperator? (m : List Token) : Steady m callOperator? := by
  intro ts
  exact ((front? m ts).bind fun front r1 _ => (type? m r1).bind fun type r2 _ =>
    SteadyAt.skip "operator" (by decide) fun r3 _ =>
    SteadyAt.skip "(" (by decide) fun r4 _ =>
    SteadyAt.skip ")" (by decide) fun r5 _ =>
    SteadyAt.skip "(" (by decide) fun r6 _ =>
      (parametersAndTail? m r6).bind fun x r7 _ =>
        SteadyAt.pure m (assemble front (some type) "operator()" x.1 x.2) r7).congr fun us => rfl

/-- An operator is a front, a name with its type, and what a function has behind it. -/
theorem operator?_eq (ts : List Token) : Declaration.operator? ts =
    (Declaration.front? ts).bind fun x => (HeaderOutline.typedOperator? x.2).bind fun y =>
      (Declaration.parametersAndTail? y.2).bind fun z =>
        some (assemble x.1 y.1.1 y.1.2 z.1.1 z.1.2, z.2) := by
  unfold Declaration.operator?
  cases Declaration.front? ts with
  | none => rfl
  | some x =>
    simp only [HeaderOutline.typedOperator?, HeaderOutline.namedOperator?, symbol, afterSymbol?,
      Option.bind_eq_bind, Option.bind_some]
    cases skip? "operator" (operatorType x.2).2 with
    | none => rfl
    | some r =>
      simp only [Option.bind_some]
      cases operatorName? (r.takeWhile (·.text ≠ "(")) with
      | none => rfl
      | some name =>
        simp only [Option.bind_some]
        cases skip? "(" (r.dropWhile (·.text ≠ "(")) <;> rfl

theorem operator? (m : List Token) : Steady m operator? := by
  intro ts
  exact ((front? m ts).bind fun front r1 _ => (typedOperator? m r1).bind fun typed r2 _ =>
    (parametersAndTail? m r2).bind fun x r3 _ =>
      SteadyAt.pure m (assemble front typed.1 typed.2 x.1 x.2) r3).congr operator?_eq

theorem constructor? (m : List Token) (className : String) : Steady m (constructor? className) := by
  intro ts
  have hp : ∀ text, (decide (text = "explicit" ∨ text = "inline" ∨ text = "constexpr")) = true →
      HasSolid text := by
    intro text h
    rcases of_decide_eq_true h with rfl | rfl | rfl <;> decide
  exact ((run m hp ts).bind fun _ r1 _ => ((name? m r1).filter fun name => name = className).bind
    fun name r2 _ => SteadyAt.skip "(" (by decide) fun r3 _ =>
      (parametersAndTail? m r3).bind fun x r4 _ =>
        SteadyAt.pure m (⟨⟨name, x.1⟩, x.2.terminated⟩ : Declared Constructor) r4).congr
          fun us => rfl

theorem destructor? (m : List Token) : Steady m destructor? := by
  intro ts
  have hp : ∀ text, (decide (text = "virtual" ∨ text = "inline")) = true → HasSolid text := by
    intro text h
    rcases of_decide_eq_true h with rfl | rfl <;> decide
  exact ((run m hp ts).bind fun _ r1 _ => SteadyAt.skip "~" (by decide) fun r2 _ =>
    (name? m r2).bind fun name r3 _ => SteadyAt.skip "(" (by decide) fun r4 _ =>
      (skipOptional m "void" (by decide) r4).bind fun _ r5 _ =>
        SteadyAt.skip ")" (by decide) fun r6 _ => (tail? m r6).bind fun tail r7 _ =>
          SteadyAt.pure m (⟨"~" ++ name, tail.terminated⟩ : Declared String) r7).congr fun us => rfl

end Steady

end HeaderOutline
