import HeaderOutline.Proofs.AddedDefaults
/-!
# Readers of what a semicolon ends

The semicolon that ends a declaration is the last thing that is read of it. Up to there the readers
are blind to what they leave: names and types stop at the semicolon, a default value and a group of
`noexcept` are closed before it, and the symbol of an operator has its parenthesis before it. So the
same is read when anything else follows the semicolon (`EndsAt`).

Where no semicolon ends the declaration, this fails: whether a body may follow is told by the next
token.

Results:
* `EndsAt.bind`, `EndsAt.skip`, `EndsAt.map`: what stands in front is read by blind readers.
* `EndsAt.tail?`, `EndsAt.parametersAndTail?`: what ends a declaration.
* `EndsAt.function?`, `EndsAt.callOperator?`, `EndsAt.operator?`, `EndsAt.constructor?`,
  `EndsAt.destructor?`.
-/
namespace HeaderOutline
open Text Declaration Token

/-- Both ends begin with a semicolon. -/
structure Terminators (x y : List Token) : Prop where
  left : ∃ t r, x = t :: r ∧ t.text = ";"
  right : ∃ u v, y = u :: v ∧ u.kind = .mark ∧ u.text = ";"

theorem skip?_semicolon {u : Token} {text : String} (hu : u.text = ";") (hne : text ≠ ";")
    (v : List Token) : skip? text (u :: v) = none := by
  rw [skip?, if_neg (by rw [hu]; exact hne.symm)]

namespace Terminators

variable {x y : List Token} {text : String}

theorem inValue_left (h : Terminators x y) : InValue x := by
  obtain ⟨t, r, rfl, ht⟩ := h.left
  exact ⟨t, r, rfl, by rw [ht]; decide⟩

theorem inValue_right (h : Terminators x y) : InValue y := by
  obtain ⟨u, v, rfl, -, hu⟩ := h.right
  exact ⟨u, v, rfl, by rw [hu]; decide⟩

theorem stops (h : Terminators x y) : Stops y := by
  obtain ⟨u, v, rfl, hk, hu⟩ := h.right
  exact ⟨u, v, rfl, by simp [hk], by rw [hu]; decide⟩

theorem skip?_none (h : Terminators x y) (hne : text ≠ ";") : skip? text y = none := by
  obtain ⟨u, v, rfl, -, hu⟩ := h.right
  exact skip?_semicolon hu hne v

theorem run (h : Terminators x y) {p : String → Bool} (hp : p ";" = false) :
    Blind x y fun ts => some ((ts.takeWhile fun t => p t.text).map (·.text),
      ts.dropWhile fun t => p t.text) := by
  refine Blind.run fun t ht => ?_
  obtain ⟨u, v, rfl, -, hu⟩ := h.right
  obtain rfl : u = t := Option.some.inj ht
  rw [hu, hp]

end Terminators

/-! ## In front of the semicolon -/

/-- A token that is found with another end was there before, unless that end begins with it. -/
theorem Exchanged.exists_skip? {x y ts us v : List Token} {text : String}
    (h : Exchanged x y ts us) (hy : skip? text y = none) (hs : skip? text us = some v) :
    ∃ r, skip? text ts = some r ∧ Exchanged x y r v := by
  obtain ⟨t, rfl, ht⟩ := skip?_eq_some.mp hs
  cases h with
  | here => rw [hs] at hy; cases hy
  | cons _ h => exact ⟨_, skip?_eq_some.mpr ⟨t, rfl, ht⟩, h⟩

theorem Exchanged.eq_end {x y us : List Token} (h : Exchanged x y x us) : us = y := by
  obtain ⟨as, hx, rfl⟩ := h.exists_append
  obtain rfl : as = [] := by simpa using hx
  rfl

namespace Blind

variable {x y : List Token} (h : Terminators x y)
include h

theorem parameter? : Blind x y parameter? := by
  intro ts
  have hvalue : Blind x y fun us => some ((), Declaration.skipAssigned ")" us) :=
    skipAssigned h.inValue_left h.inValue_right (by decide)
  refine (BlindAt.skipElse "..." (.inl (h.skip?_none (by decide)))
    (fun r _ => BlindAt.pure (Parameter.mk (.ofTokens ["..."]) none) r)
    fun _ => (typed? h.stops ts).bind fun p r _ => (hvalue r).map fun _ => p).congr fun us => ?_
  cases hs : Declaration.skip? "..." us with
  | some r => simp only [Declaration.parameter?, hs]
  | none =>
    simp only [parameter?_of_typed hs]
    cases HeaderOutline.typed? us <;> rfl

/-- What stands between the parentheses, when something does. -/
theorem voidOrList :
    Blind x y fun us => match (Declaration.skip? "void" us).bind (Declaration.skip? ")") with
      | some r => some ([], r)
      | none => Declaration.commaList Declaration.parameter? ")" us := by
  intro ts a r hts hx
  cases hs : (Declaration.skip? "void" ts).bind (Declaration.skip? ")") with
  | some mid =>
    simp only [hs, Option.some.injEq, Prod.mk.injEq] at hts
    obtain ⟨rfl, rfl⟩ := hts
    obtain ⟨r1, h1, h2⟩ := Option.bind_eq_some_iff.mp hs
    obtain ⟨t, rfl, ht⟩ := skip?_eq_some.mp h1
    obtain ⟨close, rfl, hclose⟩ := skip?_eq_some.mp h2
    have hmid := hx.trans (List.suffix_cons close mid)
    refine ⟨hmid.trans (List.suffix_cons t _), fun us hus => ?_⟩
    obtain ⟨v1, rfl, hv1⟩ := hus.uncons hmid
    obtain ⟨v2, rfl, hv2⟩ := hv1.uncons hx
    exact ⟨v2, by simp [Declaration.skip?, ht, hclose], hv2⟩
  | none =>
    simp only [hs] at hts
    obtain ⟨hsuffix, hv⟩ := commaList ")" advances_parameter? (fun xs _ => parameter? h xs) hts hx
    refine ⟨hsuffix, fun us hus => ?_⟩
    obtain ⟨v, hv, hr⟩ := hv hus
    have hnone : (Declaration.skip? "void" us).bind (Declaration.skip? ")") = none := by
      by_contra hsome
      obtain ⟨w, hsome⟩ := Option.ne_none_iff_exists'.mp hsome
      obtain ⟨v1, h1, h2⟩ := Option.bind_eq_some_iff.mp hsome
      obtain ⟨r1, hr1, hus1⟩ := hus.exists_skip? (h.skip?_none (by decide)) h1
      obtain ⟨r2, hr2, -⟩ := hus1.exists_skip? (h.skip?_none (by decide)) h2
      rw [hr1, Option.bind_some, hr2] at hs
      cases hs
    exact ⟨v, by simp only [hnone, hv], hr⟩

theorem parameters? : Blind x y parameters? := by
  intro ts
  refine (BlindAt.skipElse ")" (.inl (h.skip?_none (by decide))) (fun r _ => BlindAt.pure [] r)
    fun _ => voidOrList h ts).congr fun us => ?_
  unfold Declaration.parameters?
  cases Declaration.skip? ")" us <;> rfl

/-- The qualifiers end before the semicolon, or go on behind it in a group. -/
theorem qualifiers? (mayGroup : Bool) (depth : Nat) (isConst : Bool) :
    Blind x y (qualifiers? mayGroup depth isConst) := by
  intro ts b r hq hx
  refine ⟨hx.trans (suffix_of_qualifiers? hq), fun us hus => ?_⟩
  induction hus generalizing mayGroup depth isConst with
  | here =>
    obtain ⟨t, v, rfl, ht⟩ := h.left
    obtain ⟨u, w, rfl, -, hu⟩ := h.right
    rcases Steady.qualifiers?_cons mayGroup depth isConst ";" with ⟨b', d', c', -, heq⟩ | ⟨-, heq⟩
    · rw [heq t v ht] at hq
      exact absurd (hx.trans (suffix_of_qualifiers? hq)).length_le (by simp)
    · rw [heq t v ht] at hq
      cases hq
      exact ⟨u :: w, heq u w hu, .here⟩
  | @cons t ts us hus ih =>
    rcases Steady.qualifiers?_cons mayGroup depth isConst t.text with
      ⟨b', d', c', -, heq⟩ | ⟨-, heq⟩
    · rw [heq t ts rfl] at hq
      rw [heq t us rfl]
      exact ih b' d' c' hq
    · rw [heq t ts rfl] at hq
      cases hq
      exact ⟨t :: us, heq t us rfl, hus.cons t⟩

/-! ## Operators -/

omit h in
/-- The symbol of an operator ends in front of what is left. -/
theorem symbol (x y : List Token) :
    Blind x y fun ts => (afterSymbol? ts).map fun r => (HeaderOutline.symbol ts, r) := by
  intro ts a r hts hx
  obtain ⟨r', hr, heq⟩ := Option.map_eq_some_iff.mp hts
  obtain ⟨rfl, rfl⟩ := Prod.mk.inj heq
  have hsuffix := (suffix_of_skip? hr).1.trans (List.dropWhile_suffix _)
  refine ⟨hx.trans hsuffix, fun us hus => ?_⟩
  clear hts heq
  induction hus with
  | here =>
    have h1 := (suffix_of_skip? hr).2
    have h2 := (List.dropWhile_suffix (l := x) fun t => decide (t.text ≠ "(")).length_le
    exact absurd hx.length_le (by omega)
  | @cons t ts us hus ih =>
    by_cases ht : t.text = "("
    · obtain ⟨h1, h2⟩ := symbol_paren ht ts
      obtain ⟨h3, h4⟩ := symbol_paren ht us
      rw [h2] at hr
      cases hr
      exact ⟨us, by simp only [h1, h3, h4, Option.map_some], hus⟩
    · obtain ⟨h1, h2⟩ := symbol_cons ht ts
      obtain ⟨h3, h4⟩ := symbol_cons ht us
      rw [h2] at hr
      obtain ⟨v, hv, hrv⟩ := ih hr ((suffix_of_skip? hr).1.trans (List.dropWhile_suffix _))
      obtain ⟨w, hw, heq⟩ := Option.map_eq_some_iff.mp hv
      obtain ⟨hsymbol, rfl⟩ := Prod.mk.inj heq
      exact ⟨w, by simp only [h1, h3, h4, hw, hsymbol, Option.map_some], hrv⟩

omit h in
theorem namedOperator? (x y : List Token) : Blind x y namedOperator? := by
  intro ts
  have hname : ∀ a r, BlindAt x y (fun us => (operatorName? a).map fun name => (name, us)) r := by
    intro a r
    cases operatorName? a with
    | none => exact fun b v hb => by cases hb
    | some name => exact BlindAt.pure name r
  refine (BlindAt.skip "operator" fun r _ =>
    (symbol x y r).bind fun a v _ => hname a v).congr fun us => ?_
  unfold HeaderOutline.namedOperator?
  cases Declaration.skip? "operator" us with
  | none => rfl
  | some r =>
    simp only [Option.bind_some]
    cases afterSymbol? r <;> cases hn : operatorName? (HeaderOutline.symbol r) <;> simp [hn]

theorem typedOperator? : Blind x y typedOperator? := by
  intro ts a r hts hx
  obtain ⟨⟨name, r'⟩, h1, heq⟩ := Option.map_eq_some_iff.mp hts
  obtain ⟨rfl, rfl⟩ := Prod.mk.inj heq
  obtain ⟨hmid, hv⟩ := namedOperator? x y _ h1 hx
  -- Without a return type there is none to read before the other end either.
  rcases operatorType_cases ts with ⟨type, ht, htype, hs⟩ | hnone
  · obtain ⟨hsuffix, htv⟩ := type? h.stops ts ht hmid
    refine ⟨hsuffix, fun us hus => ?_⟩
    obtain ⟨v1, hv1, hr1⟩ := htv hus
    obtain ⟨v2, hv2, hr2⟩ := hv hr1
    refine ⟨v2, ?_, hr2⟩
    obtain ⟨w, hw, -⟩ := Option.bind_eq_some_iff.mp hv2
    have hop : operatorType us = (some type, v1) := by
      simp [operatorType, hv1, startsWith, hw]
    rw [HeaderOutline.typedOperator?, hop, hv2, htype]
    rfl
  · rw [hnone] at h1 hmid hv
    refine ⟨hmid, fun us hus => ?_⟩
    obtain ⟨v2, hv2, hr2⟩ := hv hus
    refine ⟨v2, ?_, hr2⟩
    rw [HeaderOutline.typedOperator?, operatorType_named hv2, hv2, hnone]
    rfl

end Blind

/-! ## Through the semicolon -/

/-- What the reader takes goes up to a semicolon if it is terminated, and the reader takes the same
when anything else follows a semicolon there. -/
def EndsAt {α : Type} (terminated : α → Bool) (p : Reader α) (ts : List Token) : Prop :=
  ∀ ⦃a : α⦄ ⦃r : List Token⦄, p ts = some (a, r) → terminated a = true →
    ∃ t, t.text = ";" ∧ t :: r <:+ ts ∧ ∀ ⦃u : Token⦄ ⦃v us : List Token⦄, u.bare = .mark ";" →
      Exchanged (t :: r) (u :: v) ts us → p us = some (a, v)

namespace EndsAt

section

variable {α β : Type} {ts : List Token} {p : Reader α} {f : β → Bool}

theorem congr {p q : Reader β} (he : ∀ us, p us = q us) (h : EndsAt f q ts) : EndsAt f p ts := by
  intro a r hp ha
  rw [he] at hp
  obtain ⟨t, ht, hts, hus⟩ := h hp ha
  refine ⟨t, ht, hts, fun u v us hu hx => ?_⟩
  rw [he]
  exact hus hu hx

theorem bind {q : α → Reader β} (hp : ∀ x y, Terminators x y → BlindAt x y p ts)
    (hq : ∀ a r, p ts = some (a, r) → EndsAt f (q a) r) :
    EndsAt f (fun us => (p us).bind fun z => q z.1 z.2) ts := by
  intro b r h hb
  obtain ⟨⟨a, mid⟩, h1, h2⟩ := Option.bind_eq_some_iff.mp h
  obtain ⟨t, ht, hmid, hus⟩ := hq a mid h1 h2 hb
  have hends : ∀ (u : Token) (v : List Token), u.bare = .mark ";" → Terminators (t :: r) (u :: v) :=
    fun u v hu => ⟨⟨t, r, rfl, ht⟩, ⟨u, v, rfl, congrArg Lexeme.kind hu, congrArg Lexeme.text hu⟩⟩
  have hts := (hp _ _ (hends ⟨.mark, ";", false⟩ [] rfl) h1 hmid).1
  refine ⟨t, ht, hts, fun u v us hu hx => ?_⟩
  obtain ⟨w, hw, hr⟩ := (hp _ _ (hends u v hu) h1 hmid).2 hx
  exact Option.bind_eq_some_iff.mpr ⟨_, hw, hus hu hr⟩

theorem skip (text : String) {q : Reader β}
    (hq : ∀ r, skip? text ts = some r → EndsAt f q r) :
    EndsAt f (fun us => (skip? text us).bind q) ts := by
  intro b r h hb
  obtain ⟨mid, h1, h2⟩ := Option.bind_eq_some_iff.mp h
  obtain ⟨t, ht, hmid, hus⟩ := hq mid h1 h2 hb
  obtain ⟨s, rfl, hs⟩ := skip?_eq_some.mp h1
  refine ⟨t, ht, hmid.trans (List.suffix_cons s mid), fun u v us hu hx => ?_⟩
  obtain ⟨w, rfl, hw⟩ := hx.uncons hmid
  exact Option.bind_eq_some_iff.mpr ⟨w, skip?_eq_some.mpr ⟨s, rfl, hs⟩, hus hu hw⟩

/-- One way on behind a token with a given text, and another without it. -/
theorem skipElse {p q : Reader β} (text : String) (hne : text ≠ ";")
    (hq : ∀ r, skip? text ts = some r → EndsAt f q r)
    (hp : skip? text ts = none → EndsAt f p ts) :
    EndsAt f (fun us => match skip? text us with
      | some r => q r
      | none => p us) ts := by
  intro b r h hb
  cases hs : skip? text ts with
  | some mid =>
    simp only [hs] at h
    obtain ⟨t, ht, hmid, hus⟩ := hq mid hs h hb
    obtain ⟨s, rfl, hs'⟩ := skip?_eq_some.mp hs
    refine ⟨t, ht, hmid.trans (List.suffix_cons s mid), fun u v us hu hx => ?_⟩
    obtain ⟨w, rfl, hw⟩ := hx.uncons hmid
    simp only [skip?_eq_some.mpr ⟨s, rfl, hs'⟩]
    exact hus hu hw
  | none =>
    simp only [hs] at h
    obtain ⟨t, ht, hts, hus⟩ := hp hs h hb
    refine ⟨t, ht, hts, fun u v us hu hx => ?_⟩
    have hsemicolon := skip?_semicolon (congrArg Lexeme.text hu) hne v
    simp only [hx.skip?_none hsemicolon hs]
    exact hus hu hx

theorem map {f' : α → Bool} (hp : EndsAt f' p ts) (g : α → β) (hg : ∀ a, f (g a) = f' a) :
    EndsAt f (fun us => (p us).bind fun z => some (g z.1, z.2)) ts := by
  intro b r h hb
  obtain ⟨⟨a, r'⟩, h1, heq⟩ := Option.bind_eq_some_iff.mp h
  cases heq
  obtain ⟨t, ht, hts, hus⟩ := hp h1 (hg a ▸ hb)
  exact ⟨t, ht, hts, fun u v us hu hx => Option.bind_eq_some_iff.mpr ⟨_, hus hu hx, rfl⟩⟩

end

/-! ## Tails -/

theorem ending (isConst : Bool) (spec : Option Specifier) (ts : List Token) :
    EndsAt Tail.terminated (ending isConst spec) ts := by
  intro a r h ha
  unfold HeaderOutline.ending at h
  split at h
  · next last hs =>
    cases h
    obtain ⟨t, rfl, ht⟩ := skip?_eq_some.mp hs
    refine ⟨t, ht, List.suffix_refl _, fun u v us hu hx => ?_⟩
    have hsemicolon : skip? ";" (u :: v) = some v := if_pos (congrArg Lexeme.text hu)
    simp only [hx.eq_end, HeaderOutline.ending, hsemicolon]
  · split at h
    · cases h
      cases ha
    · cases h

theorem afterEquals (isConst : Bool) (ts : List Token) :
    EndsAt Tail.terminated (afterEquals isConst) ts := by
  intro a r h ha
  cases ts with
  | nil => cases h
  | cons s ts =>
    rw [HeaderOutline.afterEquals] at h
    obtain ⟨spec, hspec, h⟩ := Option.bind_eq_some_iff.mp h
    obtain ⟨t, ht, hts, hus⟩ := ending isConst (some spec) ts h ha
    refine ⟨t, ht, hts.trans (List.suffix_cons s ts), fun u v us hu hx => ?_⟩
    obtain ⟨w, rfl, hw⟩ := hx.uncons hts
    rw [HeaderOutline.afterEquals, hspec, Option.bind_some, hus hu hw]

theorem afterQualifiers (isConst : Bool) (ts : List Token) :
    EndsAt Tail.terminated (afterQualifiers isConst) ts :=
  skipElse "=" (by decide) (fun r _ => afterEquals isConst r) fun _ => ending isConst none ts

theorem tail? (ts : List Token) : EndsAt Tail.terminated tail? ts :=
  (bind (fun _ _ h => Blind.qualifiers? h false 0 false ts)
    fun isConst r _ => afterQualifiers isConst r).congr tail?_eq

theorem parametersAndTail? (ts : List Token) :
    EndsAt (fun x => x.2.terminated) parametersAndTail? ts :=
  bind (fun _ _ h => Blind.parameters? h ts) fun params r _ =>
    (tail? r).map (fun tail => (params, tail)) fun _ => rfl

/-! ## Declarations -/

theorem function? (ts : List Token) : EndsAt Declared.terminated function? ts :=
  (bind (fun _ _ h => Blind.declarator? h.inValue_left h.stops h.inValue_right ts) fun a _ _ =>
    skip "(" fun v _ => (parametersAndTail? v).map
      (fun x => assemble a.1 (some a.2.1) a.2.2 x.1 x.2) fun _ => rfl).congr function?_eq

theorem callOperator? (ts : List Token) : EndsAt Declared.terminated callOperator? ts :=
  bind (fun _ _ h => Blind.front? h.inValue_left h.stops h.inValue_right ts) fun front r1 _ =>
    bind (fun _ _ h => Blind.type? h.stops r1) fun type _ _ =>
      skip "operator" fun _ _ => skip "(" fun _ _ => skip ")" fun _ _ => skip "(" fun r _ =>
        (parametersAndTail? r).map
          (fun x => assemble front (some type) "operator()" x.1 x.2) fun _ => rfl

theorem operator? (ts : List Token) : EndsAt Declared.terminated operator? ts :=
  (bind (fun _ _ h => Blind.front? h.inValue_left h.stops h.inValue_right ts) fun front r1 _ =>
    bind (fun _ _ h => Blind.typedOperator? h r1) fun typed r2 _ =>
      (parametersAndTail? r2).map
        (fun x => assemble front typed.1 typed.2 x.1 x.2) fun _ => rfl).congr Steady.operator?_eq

theorem constructor? (className : String) (ts : List Token) :
    EndsAt Declared.terminated (constructor? className) ts :=
  bind (fun _ _ h => h.run (p := fun text => decide (text = "explicit" ∨ text = "inline" ∨
      text = "constexpr")) (by decide) ts) fun _ r1 _ =>
    bind (fun x y _ => (Blind.name? x y r1).filter fun name => name = className) fun name r2 _ =>
      skip "(" fun r3 _ =>
        (parametersAndTail? r3).map
          (fun x => (⟨⟨name, x.1⟩, x.2.terminated⟩ : Declared Constructor)) fun _ => rfl

theorem destructor? (ts : List Token) : EndsAt Declared.terminated destructor? ts :=
  bind (fun _ _ h => h.run (p := fun text => decide (text = "virtual" ∨ text = "inline"))
      (by decide) ts) fun _ r1 _ =>
    skip "~" fun r2 _ => bind (fun x y _ => Blind.name? x y r2) fun name r3 _ =>
      skip "(" fun r4 _ =>
        bind (fun _ _ h => Blind.skipOptional "void" (h.skip?_none (by decide)) r4)
        fun _ r5 _ => skip ")" fun r6 _ =>
          (tail? r6).map
            (fun tail => (⟨"~" ++ name, tail.terminated⟩ : Declared String)) fun _ => rfl

end EndsAt

end HeaderOutline
