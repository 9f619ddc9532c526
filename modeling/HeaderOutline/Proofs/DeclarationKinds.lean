import HeaderOutline.Proofs.Recognition
import HeaderOutline.Proofs.SteadyDeclarations
/-!
# The kind of a declaration

The rules for classes, call operators, operators, functions, destructors and constructors exclude
one another: what tells them apart stands behind the specifiers or behind the type that follows
them. `kindOf` computes it from the tokens, and a reader that takes something from the tokens, or
from the tokens before gaps were left out, or from the first of them, is the one that it names.

So a text that is being made longer, as lines are joined to it, never changes from one of these
rules to another.

Results:
* `kindOf_of_accepts`: the kind of what a reader takes something from.
* `Rule.eq_of_recognize?`: two rules for declarations that recognize beginnings of one text are the
  same.
-/
namespace HeaderOutline
open Text Declaration Token

/-! ## Words of a text -/

/-- The word tokens are made of name characters, as those of a text are. -/
def Lexical (ts : List Token) : Prop :=
  ∀ t ∈ ts, t.kind = .word → ∀ c ∈ t.text.toList, isNameChar c = true

theorem lexical_tokens (cs : List Char) : Lexical (tokens cs) := by
  fun_induction tokens cs with
  | case1 => exact fun t ht => absurd ht List.not_mem_nil
  | case2 cs t rest hn ih =>
    intro u hu hk
    rcases List.mem_cons.mp hu with rfl | hu
    · obtain ⟨c, r, -, rfl, -⟩ := exists_lexeme_of_next? hn
      simp only at hk
      have hc : isNameChar c = true := by
        unfold lexeme at hk
        split at hk
        · assumption
        · split at hk
          · cases hk
          · split at hk <;> cases hk
      intro d hd
      simp only [lexeme, hc, if_true, String.toList_ofList] at hd
      rcases List.mem_cons.mp hd with rfl | hd
      · exact hc
      · exact List.all_eq_true.mp List.all_takeWhile d hd
    · exact ih u hu hk

theorem Lexical.of_suffix {ts us : List Token} (h : Lexical ts) (hs : us <:+ ts) : Lexical us :=
  fun t ht => h t (hs.subset ht)

theorem Lexical.ne_of_isName {t : Token} {ts : List Token} (h : Lexical (t :: ts))
    (hn : t.isName = true) (text : String) (hx : text.toList.all isNameChar = false) :
    t.text ≠ text := by
  rintro rfl
  simp only [isName, Bool.and_eq_true, beq_iff_eq] at hn
  rw [List.all_eq_true.mpr (h t List.mem_cons_self hn.1)] at hx
  cases hx

theorem Token.isQuote_head?_of_next? {cs rest : List Char} {t : Token}
    (h : next? cs = some (t, rest)) (hkind : t.kind = .literal) :
    t.text.toList.head?.any isQuote = true := by
  obtain ⟨c, r, -, rfl, rfl⟩ := exists_lexeme_of_next? h
  rw [String.toList_ofList]
  revert hkind
  unfold lexeme
  split
  · intro hk
    cases hk
  · split
    · next hq => exact fun _ => hq
    · split <;> (intro hk; cases hk)

theorem isQuote_head?_of_literal {cs : List Char} {t : Token} (ht : t ∈ tokens cs)
    (hk : t.kind = .literal) : t.text.toList.head?.any isQuote = true := by
  fun_induction tokens cs with
  | case1 => exact absurd ht List.not_mem_nil
  | case2 cs u rest hn ih =>
    rcases List.mem_cons.mp ht with rfl | ht
    · exact Token.isQuote_head?_of_next? hn hk
    · exact ih ht

/-- What begins neither as a name does nor with a quote is a mark. -/
theorem kind_eq_mark {cs : List Char} {t : Token} (ht : t ∈ tokens cs) {c : Char}
    (hc : t.text.toList.head? = some c) (hn : isNameChar c = false) (hq : isQuote c = false) :
    t.kind = .mark := by
  cases hk : t.kind with
  | word =>
    have hname := lexical_tokens cs t ht hk c (List.mem_of_mem_head? hc)
    rw [hn] at hname
    cases hname
  | mark => rfl
  | literal =>
    have hquote := isQuote_head?_of_literal ht hk
    rw [hc, Option.any_some, hq] at hquote
    cases hquote

/-! ## Specifiers -/

/-- A word that may stand in front of a return type. -/
def isSpecifier (text : String) : Bool :=
  text == "static" || text == "virtual" || text == "inline" || text == "constexpr" ||
    text == "explicit"

theorem specifiers_rest (isStatic isVirtual : Bool) (ts : List Token) :
    (specifiers isStatic isVirtual ts).2 = ts.dropWhile fun t => isSpecifier t.text := by
  fun_induction specifiers isStatic isVirtual ts with
  | case1 => rfl
  | case2 _ _ t ts h ih => rw [ih, List.dropWhile_cons, if_pos (by simp [isSpecifier, h])]
  | case3 _ _ t ts _ h ih => rw [ih, List.dropWhile_cons, if_pos (by simp [isSpecifier, h])]
  | case4 _ _ t ts _ _ h ih =>
    rw [ih, List.dropWhile_cons, if_pos (by rcases h with h | h | h <;> simp [isSpecifier, h])]
  | case5 _ _ t ts h1 h2 h3 =>
    rw [List.dropWhile_cons, if_neg]
    simp only [not_or] at h3
    simp [isSpecifier, h1, h2, h3]

theorem front?_plain {ts : List Token} (h : skip? "template" ts = none) :
    ∃ f, front? ts = some (f, ts.dropWhile fun t => isSpecifier t.text) := by
  refine ⟨⟨none, (specifiers false false ts).1.1, (specifiers false false ts).1.2⟩, ?_⟩
  rw [← specifiers_rest false false ts]
  simp [front?, templateHead?, h]

theorem dropWhile_dropWhile {α : Type} {p q : α → Bool} (h : ∀ a, p a = true → q a = true)
    (xs : List α) : (xs.dropWhile p).dropWhile q = xs.dropWhile q := by
  induction xs with
  | nil => rfl
  | cons x xs ih =>
    cases hp : p x with
    | true => simp [hp, h x hp, ih]
    | false => simp [hp]

/-! ## The kind of a declaration -/

/-- The only rule for declarations that may recognize the tokens. It shows behind the specifiers, or
behind the type that follows them. -/
def kindOf (ts : List Token) : Rule :=
  match front? ts with
  | none => .constructor
  | some (_, behind) =>
    match type? behind with
    | some (_, rest) =>
      match skip? "operator" rest with
      | some r => if startsWith "(" r then .callOperator else .operator
      | none => if startsWith "(" rest then .constructor else .function
    | none =>
      if startsWith "~" behind then .destructor
      else match skip? "operator" behind with
        | some r => if startsWith "(" r then .constructor else .operator
        | none =>
          match classKey? behind with
          | some (_, r) => if startsWith "(" r then .constructor else .classHead
          | none => .constructor

/-- The reader of a rule for declarations takes something from the tokens. -/
def Accepts (className : Option String) (ts : List Token) : Rule → Prop
  | .classHead => (classHead? ts).isSome
  | .callOperator => (callOperator? ts).isSome
  | .operator => (operator? ts).isSome
  | .function => (function? ts).isSome
  | .destructor => (destructor? ts).isSome
  | .constructor => ∃ name, className = some name ∧ (constructor? name ts).isSome
  | _ => False

section

variable {m ts us : List Token} {g : Bool}

theorem startsWith_eq_false {text : String} {ts : List Token} :
    startsWith text ts = false ↔ skip? text ts = none := by
  rw [startsWith, Option.isSome_eq_false_iff, Option.isNone_iff_eq_none]

theorem skip?_ne {t : Token} {text : String} (h : t.text ≠ text) (ts : List Token) :
    skip? text (t :: ts) = none := by
  rw [skip?, if_neg h]

theorem startsWith_ne {t : Token} {text : String} (h : t.text ≠ text) (ts : List Token) :
    startsWith text (t :: ts) = false :=
  startsWith_eq_false.mpr (skip?_ne h ts)

theorem startsWith_self {t : Token} {text : String} (h : t.text = text) (ts : List Token) :
    startsWith text (t :: ts) = true := by
  rw [startsWith, skip?, if_pos h]
  rfl

/-- A front and a type are read alike when what follows tells where the type ends. -/
theorem Continues.front_type {r rest : List Token} {f : Front} {type : TypeExpr}
    (hus : Continues m g ts us) (hf : front? ts = some (f, r))
    (ht : type? r = some (type, rest)) (ha : Anchored m rest) :
    ∃ g' v w, front? us = some (f, v) ∧ type? v = some (type, w) ∧ Continues m g' rest w := by
  obtain ⟨hr, htv⟩ := Steady.type? m r ht ha
  obtain ⟨g1, v, hv, hcv⟩ := (Steady.front? m ts hf hr).2 hus
  obtain ⟨g2, w, hw, hcw⟩ := htv hcv
  exact ⟨g2, v, w, hv, hw, hcw⟩

/-- The name of a function begins with neither the word `operator` nor a parenthesis. -/
theorem skip?_of_qualifiedName? {name : String} {r : List Token}
    (h : qualifiedName? ts = some (name, r)) (hl : Lexical ts) :
    skip? "operator" ts = none ∧ skip? "(" ts = none := by
  cases ts with
  | nil => exact ⟨rfl, rfl⟩
  | cons t ts =>
    by_cases ht : t.text = "::"
    · exact ⟨by rw [skip?, ht]; rfl, by rw [skip?, ht]; rfl⟩
    · obtain ⟨⟨first, behind⟩, hf, -⟩ := Option.map_eq_some_iff.mp h
      have hopt : skipOptional "::" (t :: ts) = t :: ts := by simp [skipOptional, skip?, ht]
      rw [hopt] at hf
      obtain ⟨hn, hres⟩ := Option.filter_eq_some_iff.mp hf
      obtain ⟨u, heq, hname, rfl⟩ := exists_of_name? hn
      obtain ⟨rfl, -⟩ := List.cons.inj heq
      have hop : t.text ≠ "operator" := by
        intro he
        have hreserved : isReserved "operator" = true := by decide
        simp [he, hreserved] at hres
      have hparen := hl.ne_of_isName hname "(" (by decide)
      exact ⟨by rw [skip?, if_neg hop], by rw [skip?, if_neg hparen]⟩

theorem kindOf_function (hl : Lexical us) (hus : Continues m g ts us)
    (h : (function? ts).isSome = true) : kindOf us = .function := by
  obtain ⟨_, h⟩ := Option.isSome_iff_exists.mp h
  simp only [function?, Option.bind_eq_bind, Option.bind_eq_some_iff, Prod.exists] at h
  obtain ⟨front, r1, h1, type, r2, h2, name, r3, h3, r4, h4, -⟩ := h
  have ha3 : Anchored m r3 := .of_skip?_ne (by decide) (by decide) h4
  obtain ⟨ha2, hv3⟩ := Steady.qualifiedName? m r2 h3 ha3
  obtain ⟨g', v, w, hv, hw, hcw⟩ := hus.front_type h1 h2 ha2
  obtain ⟨_, _, hname, -⟩ := hv3 hcw
  have hlw : Lexical w := hl.of_suffix ((advances_type? hw).1.trans (suffix_of_front? hv))
  obtain ⟨hop, hparen⟩ := skip?_of_qualifiedName? hname hlw
  simp [kindOf, hv, hw, hop, startsWith_eq_false.mpr hparen]

theorem kindOf_callOperator (hus : Continues m g ts us)
    (h : (callOperator? ts).isSome = true) : kindOf us = .callOperator := by
  obtain ⟨_, h⟩ := Option.isSome_iff_exists.mp h
  simp only [callOperator?, Option.bind_eq_bind, Option.bind_eq_some_iff, Prod.exists] at h
  obtain ⟨front, r1, h1, type, r2, h2, r3, h3, r4, h4, -⟩ := h
  obtain ⟨g', v, w, hv, hw, hcw⟩ :=
    hus.front_type h1 h2 (.of_skip?_ne (by decide) (by decide) h3)
  obtain ⟨w1, hw1, hc1⟩ := hcw.skip? h3 (by decide)
  obtain ⟨w2, hw2, -⟩ := hc1.skip? h4 (by decide)
  simp [kindOf, hv, hw, hw1, startsWith, hw2]

/-- The symbol of an operator is not empty, so no parenthesis follows the word. -/
theorem skip?_of_namedOperator? {name : String} {r : List Token}
    (h : namedOperator? ts = some (name, r)) :
    ∃ v, skip? "operator" ts = some v ∧ startsWith "(" v = false := by
  obtain ⟨v, h1, h2⟩ := Option.bind_eq_some_iff.mp h
  obtain ⟨name', hn, -⟩ := Option.bind_eq_some_iff.mp h2
  refine ⟨v, h1, startsWith_eq_false.mpr ?_⟩
  cases hs : skip? "(" v with
  | none => rfl
  | some w =>
    obtain ⟨t, rfl, ht⟩ := skip?_eq_some.mp hs
    rw [(symbol_paren ht w).1] at hn
    simp [operatorName?, spelled, words] at hn

theorem kindOf_operator (hus : Continues m g ts us) (h : (operator? ts).isSome = true) :
    kindOf us = .operator := by
  obtain ⟨_, h⟩ := Option.isSome_iff_exists.mp h
  rw [Steady.operator?_eq] at h
  simp only [Option.bind_eq_some_iff, Prod.exists] at h
  obtain ⟨front, r1, h1, typed, name, r2, h2, -⟩ := h
  obtain ⟨⟨name', r3⟩, h3, -⟩ := Option.map_eq_some_iff.mp h2
  have hop : Anchored m (operatorType r1).2 := by
    obtain ⟨v, hv, -⟩ := skip?_of_namedOperator? h3
    exact .of_skip?_ne (by decide) (by decide) hv
  rcases operatorType_cases r1 with ⟨type, ht, -, -⟩ | hnone
  · obtain ⟨g', v, w, hv, hw, hcw⟩ := hus.front_type h1 ht hop
    obtain ⟨_, hx, -⟩ := hcw.namedOperator? h3
    obtain ⟨x, hx, hparen⟩ := skip?_of_namedOperator? hx
    simp [kindOf, hv, hw, hx, hparen]
  · rw [hnone] at h3 hop
    obtain ⟨g', v, hv, hcv⟩ := (Steady.front? m ts h1 hop).2 hus
    obtain ⟨_, hx, -⟩ := hcv.namedOperator? h3
    obtain ⟨x, hx, hparen⟩ := skip?_of_namedOperator? hx
    obtain ⟨t, rfl, ht⟩ := skip?_eq_some.mp hx
    have htype := type?_reserved (t := t) (by rw [ht]; decide) (by rw [ht]; decide) x
    have htilde := startsWith_ne (show t.text ≠ "~" by rw [ht]; decide) x
    simp [kindOf, hv, htype, htilde, hx, hparen]

/-- A first word `template` is not skipped before the name of a constructor or destructor. -/
theorem template_cases {p : String → Bool} (hp : ∀ text, p text = true → isSpecifier text = true)
    {t : Token} {ts rest : List Token} (hd : (ts.dropWhile fun t => p t.text) = t :: rest) :
    (t.text = "template" ∧ ts = t :: rest) ∨
      ∃ f, front? ts = some (f, (t :: rest).dropWhile fun t => isSpecifier t.text) := by
  cases hs : skip? "template" ts with
  | none =>
    obtain ⟨f, hf⟩ := front?_plain hs
    rw [← hd, dropWhile_dropWhile fun t ht => hp t.text ht]
    exact .inr ⟨f, hf⟩
  | some r =>
    obtain ⟨u, rfl, hu⟩ := skip?_eq_some.mp hs
    have hpu : p u.text = false := Bool.eq_false_iff.mpr fun h => by
      have hspec := hp _ h
      rw [hu] at hspec
      revert hspec
      decide
    rw [List.dropWhile_cons, if_neg (by simp [hpu])] at hd
    exact .inl ⟨(List.cons.inj hd).1 ▸ hu, hd⟩

theorem kindOf_destructor (hl : Lexical us) (hus : Continues m g ts us)
    (h : (destructor? ts).isSome = true) : kindOf us = .destructor := by
  obtain ⟨_, h⟩ := Option.isSome_iff_exists.mp h
  simp only [destructor?, Option.bind_eq_bind, Option.bind_eq_some_iff] at h
  obtain ⟨r1, h1, -⟩ := h
  have hp : ∀ text, decide (text = "virtual" ∨ text = "inline") = true →
      HasSolid text ∧ isSpecifier text = true := by
    intro text h
    rcases of_decide_eq_true h with rfl | rfl <;> decide
  obtain ⟨-, hrun⟩ := Steady.run m (fun text h => (hp text h).1) ts rfl
    (.of_skip?_ne (by decide) (by decide) h1)
  obtain ⟨_, v, hv, hcv⟩ := hrun hus
  obtain ⟨w, hw, -⟩ := hcv.skip? h1 (by decide)
  obtain ⟨t, rfl, ht⟩ := skip?_eq_some.mp hw
  have hd := (Prod.mk.inj (Option.some.inj hv)).2
  rcases template_cases (fun text h => (hp text h).2) hd with ⟨he, -⟩ | ⟨f, hf⟩
  · rw [ht] at he
    exact absurd he (by decide)
  rw [List.dropWhile_cons, if_neg (by rw [ht]; decide)] at hf
  have hname : t.isName ≠ true := fun hn =>
    (hl.of_suffix (hd ▸ List.dropWhile_suffix _)).ne_of_isName hn "~" (by decide) ht
  have htype := type?_none (t := t) (by rw [ht]; decide) (by rw [ht]; decide) (by rw [ht]; decide)
    (fun hn => absurd hn hname) w
  simp [kindOf, hf, htype, startsWith_self ht]

theorem kindOf_classHead (hl : Lexical us) (hus : Continues m g ts us)
    (h : (classHead? ts).isSome = true) : kindOf us = .classHead := by
  obtain ⟨_, h⟩ := Option.isSome_iff_exists.mp h
  simp only [classHead?, Option.bind_eq_bind, Option.bind_eq_some_iff, Prod.exists] at h
  obtain ⟨template, r1, h1, key, r2, h2, name, r3, h3, -⟩ := h
  obtain ⟨t, rfl, hkey⟩ : ∃ t, r1 = t :: r2 ∧ ClassKey.ofKeyword? t.text = some key := by
    cases r1 with
    | nil => cases h2
    | cons t r1 =>
      obtain ⟨_, hk, heq⟩ := Option.map_eq_some_iff.mp h2
      cases heq
      exact ⟨t, rfl, hk⟩
  obtain ⟨n, rfl, hname, -⟩ := exists_of_name? h3
  have hword : ∀ k : ClassKey, HasSolid k.keyword ∧ isReserved k.keyword = true ∧
      isSpecifier k.keyword = false ∧ k.keyword ∉ ["::", "const", "~", "operator"] := by
    intro k
    cases k <;> decide
  obtain ⟨hsolid, hres, hspec, hne⟩ := hword key
  have ht := ClassKey.ofKeyword?_eq_some.mp hkey
  rw [← ht] at hsolid hres hspec hne
  simp only [List.mem_cons, List.not_mem_nil, or_false, not_or] at hne
  obtain ⟨-, hv⟩ := Steady.templateHead? m ts h1 (.of_text hsolid.isGap hne.1 _)
  obtain ⟨g1, v, hv, hcv⟩ := hv hus
  obtain ⟨t', v, rfl, -, ht', hcv⟩ := hcv.uncons hsolid.isGap
  obtain ⟨n', v, rfl, hk, hn', -⟩ := hcv.uncons (isGap_of_isName hname)
  rw [← ht'] at hres hspec hne hkey
  have hfront : ∃ f, front? us = some (f, t' :: n' :: v) := by
    have hs := specifiers_rest false false (t' :: n' :: v)
    rw [List.dropWhile_cons, if_neg (by simp [hspec])] at hs
    exact ⟨_, by simp [front?, hv, hs]; rfl⟩
  obtain ⟨f, hf⟩ := hfront
  have hl : Lexical (n' :: v) := hl.of_suffix ((List.suffix_cons t' _).trans (suffix_of_front? hf))
  have hparen := startsWith_ne (hl.ne_of_isName ((isName_congr hk hn').trans hname)
    "(" (by decide)) v
  have hck : classKey? (t' :: n' :: v) = some (key, n' :: v) := by simp [classKey?, hkey]
  simp [kindOf, hf, type?_reserved hres hne.2.1, startsWith_ne hne.2.2.1, skip?_ne hne.2.2.2, hck,
    hparen]

/-- The name of a constructor is followed by a parenthesis, so if it begins a type, it ends it. -/
theorem type?_constructor {n q : Token} {v rest : List Token} {type : TypeExpr}
    (hl : Lexical (n :: q :: v)) (hn : n.isName = true) (hq : q.text = "(")
    (h : type? (n :: q :: v) = some (type, rest)) : rest = q :: v := by
  have hqn : q.isName = false := Bool.eq_false_iff.mpr fun hname =>
    (hl.of_suffix (List.suffix_cons n _)).ne_of_isName hname "(" (by decide) hq
  have hroot : n.text ≠ "::" := hl.ne_of_isName hn "::" (by decide)
  have hparen : isNative "(" = false := by decide
  have hnone : bareType? (q :: v) = none := by
    simp [bareType?, hq, hparen, qualifiedName?, skipOptional, skip?, freeName?, Declaration.name?,
      hqn]
  have hmarks : typeMarks (q :: v) = ([], q :: v) := by simp [typeMarks, stars, ampersands, hq]
  have hlater : laterParts (q :: v) = ("", q :: v) := by cases v <;> simp [laterParts, hq]
  have hafter : ∀ front, afterFront front (q :: v) = some (.ofTokens front.1, q :: v) := by
    intro front
    simp [afterFront, markedType, hmarks, skip?, hq]
  rw [type?_eq] at h
  obtain ⟨⟨front, behind⟩, hf, h⟩ := Option.bind_eq_some_iff.mp h
  suffices hb : behind = q :: v by
    rw [hb, hafter] at h
    cases h
    rfl
  obtain ⟨⟨bare, behind'⟩, hbare, heq⟩ := Option.map_eq_some_iff.mp hf
  obtain ⟨-, rfl⟩ := Prod.mk.inj heq
  by_cases hc : n.text = "const"
  · have hopt : skipOptional "const" (n :: q :: v) = q :: v := by simp [skipOptional, skip?, hc]
    rw [hopt, hnone] at hbare
    cases hbare
  · have hopt : skipOptional "const" (n :: q :: v) = n :: q :: v := by
      simp [skipOptional, skip?, hc]
    rw [hopt, bareType?] at hbare
    cases hnative : isNative n.text with
    | true =>
      simp only [List.takeWhile_cons, List.dropWhile_cons, hnative, hq, hparen, if_true] at hbare
      cases hbare
      rfl
    | false =>
      simp only [List.takeWhile_cons, hnative, Bool.false_eq_true, if_false] at hbare
      obtain ⟨⟨name, r⟩, hqual, heq⟩ := Option.map_eq_some_iff.mp hbare
      obtain ⟨-, rfl⟩ := Prod.mk.inj heq
      obtain ⟨⟨first, r'⟩, hfirst, heq⟩ := Option.map_eq_some_iff.mp hqual
      have hname := (Option.filter_eq_some_iff.mp hfirst).1
      simp only [skipOptional, skip?_ne hroot, Option.getD_none, Declaration.name?, hn,
        if_true] at hname
      cases hname
      simp only [hlater] at heq
      exact (Prod.mk.inj heq).2.symm

/-- A parenthesis behind the specifiers, when the name has been taken for one of them. -/
theorem kindOf_paren {f : Front} {q : Token} {v : List Token} (hl : Lexical (q :: v))
    (hf : front? us = some (f, q :: v)) (hq : q.text = "(") : kindOf us = .constructor := by
  have hqn : q.isName ≠ true := fun hname => hl.ne_of_isName hname "(" (by decide) hq
  have htype := type?_none (t := q) (by rw [hq]; decide) (by rw [hq]; decide) (by rw [hq]; decide)
    (fun hname => absurd hname hqn) v
  have htilde := startsWith_ne (show q.text ≠ "~" by rw [hq]; decide) v
  have hop := skip?_ne (show q.text ≠ "operator" by rw [hq]; decide) v
  have hck : classKey? (q :: v) = none := by simp [classKey?, ClassKey.ofKeyword?, hq]
  simp [kindOf, hf, htype, htilde, hop, hck]

/-- A name and a parenthesis behind the specifiers, whether the name begins a type, is a keyword or
neither. -/
theorem kindOf_name {f : Front} {n q : Token} {v : List Token} (hl : Lexical (n :: q :: v))
    (hf : front? us = some (f, n :: q :: v)) (hn : n.isName = true) (hq : q.text = "(") :
    kindOf us = .constructor := by
  have hparen := startsWith_self hq v
  cases htype : type? (n :: q :: v) with
  | some found =>
    obtain ⟨type, rest⟩ := found
    obtain rfl := type?_constructor hl hn hq htype
    have hop := skip?_ne (show q.text ≠ "operator" by rw [hq]; decide) v
    simp [kindOf, hf, htype, hop, hparen]
  | none =>
    have htilde := startsWith_ne (hl.ne_of_isName hn "~" (by decide)) (q :: v)
    by_cases hop : n.text = "operator"
    · have hskip : skip? "operator" (n :: q :: v) = some (q :: v) := by rw [skip?, if_pos hop]
      simp [kindOf, hf, htype, htilde, hskip, hparen]
    · cases hck : classKey? (n :: q :: v) with
      | none => simp [kindOf, hf, htype, htilde, skip?_ne hop, hck]
      | some found =>
        obtain ⟨key, _, heq⟩ := Option.map_eq_some_iff.mp hck
        simp [kindOf, hf, htype, htilde, skip?_ne hop, hck, ← heq, hparen]

theorem kindOf_constructor {className : String} (hl : Lexical us) (hus : Continues m g ts us)
    (h : (constructor? className ts).isSome = true) : kindOf us = .constructor := by
  obtain ⟨_, h⟩ := Option.isSome_iff_exists.mp h
  simp only [constructor?, Option.bind_eq_bind, Option.bind_eq_some_iff, Prod.exists] at h
  obtain ⟨name, r1, h1, r2, h2, -⟩ := h
  have hp : ∀ text, decide (text = "explicit" ∨ text = "inline" ∨ text = "constexpr") = true →
      HasSolid text ∧ isSpecifier text = true := by
    intro text h
    rcases of_decide_eq_true h with rfl | rfl | rfl <;> decide
  have h1 := (Option.filter_eq_some_iff.mp h1).1
  have ha1 : Anchored m r1 := .of_skip?_ne (by decide) (by decide) h2
  obtain ⟨ha0, hname⟩ := Steady.name? m _ h1 ha1
  obtain ⟨-, hrun⟩ := Steady.run m (fun text h => (hp text h).1) ts rfl ha0
  obtain ⟨_, v, hv, hcv⟩ := hrun hus
  obtain ⟨_, w, hw, hcw⟩ := hname hcv
  obtain ⟨x, hx, -⟩ := hcw.skip? h2 (by decide)
  obtain ⟨q, rfl, hq⟩ := skip?_eq_some.mp hx
  have hd := (Prod.mk.inj (Option.some.inj hv)).2
  obtain ⟨n, rfl, hn, -⟩ := exists_of_name? hw
  have hlv : Lexical (n :: q :: x) := hl.of_suffix (hd ▸ List.dropWhile_suffix _)
  rcases template_cases (fun text h => (hp text h).2) hd with ⟨ht, rfl⟩ | ⟨f, hf⟩
  · simp [kindOf, front?, templateHead?, skip?, ht, hq]
  · rw [List.dropWhile_cons] at hf
    split at hf
    · rw [List.dropWhile_cons, if_neg (by rw [hq]; decide)] at hf
      exact kindOf_paren (hlv.of_suffix (List.suffix_cons n _)) hf hq
    · exact kindOf_name hlv hf hn hq

/-- Whatever follows and whichever gaps are left out, what a reader takes something from is of the
kind of that reader. So two readers never take something from the beginnings of one text. -/
theorem kindOf_of_accepts {className : Option String} {rule : Rule} (hl : Lexical us)
    (hus : Continues m g ts us) (h : Accepts className ts rule) : kindOf us = rule := by
  cases rule with
  | classHead => exact kindOf_classHead hl hus h
  | callOperator => exact kindOf_callOperator hus h
  | operator => exact kindOf_operator hus h
  | function => exact kindOf_function hl hus h
  | destructor => exact kindOf_destructor hl hus h
  | constructor =>
    obtain ⟨name, -, h⟩ := h
    exact kindOf_constructor hl hus h
  | _ => exact absurd h id

end

namespace Rule

def declarationRules : List Rule :=
  [classHead, callOperator, operator, function, destructor, constructor]

theorem accepts_of_recognize? {className : Option String} {cs rest : List Char} {k : Construct}
    {rule : Rule} (hr : rule ∈ declarationRules)
    (h : recognize? className cs rule = some (k, rest)) :
    Accepts className (Token.tokens cs) rule := by
  have hread : ∀ {α : Type} {read : Reader α} {make : α → Construct},
      readText read make cs = some (k, rest) → (read (Token.tokens cs)).isSome = true := by
    intro α read make h
    obtain ⟨x, hx, -⟩ := Option.map_eq_some_iff.mp h
    rw [hx]
    rfl
  simp only [declarationRules, List.mem_cons, List.not_mem_nil, or_false] at hr
  rcases hr with rfl | rfl | rfl | rfl | rfl | rfl
  case inr.inr.inr.inr.inr =>
    obtain ⟨name, hname, h⟩ := Option.bind_eq_some_iff.mp h
    exact ⟨name, hname, hread h⟩
  all_goals
    simp only [recognize?] at h
    exact hread h

/-- Two rules for declarations that recognize beginnings of one text are the same. -/
theorem eq_of_recognize? {className : Option String} {cs ds rest rest' : List Char}
    {k k' : Construct} {rule rule' : Rule} {m : List Token} (hr : rule ∈ declarationRules)
    (hr' : rule' ∈ declarationRules) (hm : Token.tokens ds = Token.tokens cs ++ m)
    (h : recognize? className cs rule = some (k, rest))
    (h' : recognize? className ds rule' = some (k', rest')) : rule = rule' := by
  have h1 := kindOf_of_accepts (lexical_tokens ds)
    (hm ▸ Continues.refl_append m (Token.tokens cs)) (accepts_of_recognize? hr h)
  rw [← h1, kindOf_of_accepts (lexical_tokens ds) (.refl _) (accepts_of_recognize? hr' h')]

end Rule

end HeaderOutline
