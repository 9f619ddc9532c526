import HeaderOutline.Declaration.Default
import HeaderOutline.Proofs.Breaks
/-!
# Steady readers

A reader is steady when it takes the same value from tokens and from the same tokens with some gaps
left out. This fails where a reader looks past what it takes: a gap behind it may hide a token that
would have been taken too. So a reader is only asked to be steady when it stops at a place where
gaps make no difference (`Anchored`), and in return it shows that it began at such a place. The
readers of declarations are steady because each of their parts stops before a mark or a name.

`Steady m p` also allows tokens `m` behind all others, which are seen only by what reads to the end.

Results:
* `Steady.name?`, `Steady.skipOptional`, `Steady.run`, `Steady.skipAssigned`: single tokens, runs of
  words and default values.
* `SteadyAt.bind`, `SteadyAt.skip`, `SteadyAt.skipElse`, `Steady.commaList`: readers made of
  readers.
-/
namespace HeaderOutline
open Text Declaration Token

/-! ## Where a reader may stop -/

/-- The tokens mean the same when gaps are left out of them and `m` follows: they do not begin with
a gap, nor with a `::` that a gap parts from its name, and when they are all there is to see, `m` is
empty. -/
def Anchored (m : List Token) : List Token → Prop
  | [] => m = []
  | [t] => t.isGap = false ∧ (t.text = "::" → m = [])
  | t :: u :: _ => t.isGap = false ∧ (t.text = "::" → u.isGap = false)

/-- The reader takes the same value from the tokens when gaps are left out and `m` follows, provided
that it stops at a place where that makes no difference. It then began at such a place. -/
def SteadyAt {α : Type} (m : List Token) (p : Reader α) (ts : List Token) : Prop :=
  ∀ ⦃a : α⦄ ⦃r : List Token⦄, p ts = some (a, r) → Anchored m r → Anchored m ts ∧
    ∀ ⦃g : Bool⦄ ⦃us : List Token⦄, Continues m g ts us →
      ∃ g' v, p us = some (a, v) ∧ Continues m g' r v

/-- The reader is steady wherever it begins. -/
def Steady {α : Type} (m : List Token) (p : Reader α) : Prop :=
  ∀ ts, SteadyAt m p ts

/-- The text has a character that is not blank. -/
def HasSolid (text : String) : Prop :=
  text.toList.all isBlank = false

instance (text : String) : Decidable (HasSolid text) :=
  inferInstanceAs (Decidable (_ = _))

section

variable {m ts us r : List Token} {t : Token} {g : Bool} {text : String}

theorem HasSolid.isGap (h : HasSolid t.text) : t.isGap = false := by
  simp [Token.isGap, show t.text.toList.all isBlank = false from h]

theorem ne_of_isGap (ht : t.isGap = true) (hx : HasSolid text) : t.text ≠ text := by
  rintro rfl
  rw [hx.isGap] at ht
  cases ht

theorem isGap_of_isName (h : t.isName = true) : t.isGap = false := by
  simp only [isName, Bool.and_eq_true, beq_iff_eq] at h
  simp [isGap, h.1]

theorem Anchored.cons (ht : t.isGap = false) (h : Anchored m ts) : Anchored m (t :: ts) := by
  match ts, h with
  | [], h => exact ⟨ht, fun _ => h⟩
  | [_], h => exact ⟨ht, fun _ => h.1⟩
  | _ :: _ :: _, h => exact ⟨ht, fun _ => h.1⟩

theorem Anchored.of_text (ht : t.isGap = false) (hne : t.text ≠ "::") (ts : List Token) :
    Anchored m (t :: ts) := by
  cases ts with
  | nil => exact ⟨ht, fun he => absurd he hne⟩
  | cons u ts => exact ⟨ht, fun he => absurd he hne⟩

theorem Anchored.head (h : Anchored m (t :: ts)) : t.isGap = false := by
  cases ts with
  | nil => exact h.1
  | cons _ _ => exact h.1

theorem Continues.uncons (h : Continues m g (t :: ts) us) (ht : t.isGap = false) :
    ∃ u v, us = u :: v ∧ u.kind = t.kind ∧ u.text = t.text ∧ Continues m false ts v := by
  cases h with
  | keep hk hx _ h => exact ⟨_, _, rfl, hk, hx, h⟩
  | drop hgap _ => rw [ht] at hgap; cases hgap

theorem Continues.eq_of_nil (h : Continues m g [] us) : us = m := by
  cases h
  rfl

theorem isName_congr {u : Token} (hk : u.kind = t.kind) (ht : u.text = t.text) :
    u.isName = t.isName := by
  rw [isName, isName, startsWithDigit, startsWithDigit, hk, ht]

theorem isNumber_congr {u : Token} (hk : u.kind = t.kind) (ht : u.text = t.text) :
    u.isNumber = t.isNumber := by
  rw [Token.isNumber, Token.isNumber, startsWithDigit, startsWithDigit, hk, ht]

/-! ## Single tokens -/

theorem exists_of_name? {name : String} (h : Declaration.name? ts = some (name, r)) :
    ∃ t, ts = t :: r ∧ t.isName = true ∧ t.text = name := by
  cases ts with
  | nil => cases h
  | cons t ts =>
    rw [Declaration.name?] at h
    split at h
    · next hn =>
      cases h
      exact ⟨t, rfl, hn, rfl⟩
    · cases h

theorem Continues.skip? (hc : Continues m g ts us) (h : skip? text ts = some r)
    (hx : HasSolid text) : ∃ v, Declaration.skip? text us = some v ∧ Continues m false r v := by
  obtain ⟨t, rfl, rfl⟩ := skip?_eq_some.mp h
  obtain ⟨u, v, rfl, -, hu, hv⟩ := hc.uncons hx.isGap
  exact ⟨v, skip?_eq_some.mpr ⟨u, rfl, hu⟩, hv⟩

theorem Continues.skip?_none (hc : Continues m g ts us) (h : Declaration.skip? text ts = none)
    (ha : Anchored m ts) : Declaration.skip? text us = none := by
  cases ts with
  | nil =>
    rw [hc.eq_of_nil, show m = [] from ha]
    rfl
  | cons t ts =>
    obtain ⟨u, v, rfl, -, hu, -⟩ := hc.uncons ha.head
    rw [Declaration.skip?] at h ⊢
    rw [hu]
    split at h
    · cases h
    · next hne => rw [if_neg hne]

theorem Anchored.of_skip? (hx : HasSolid text) (h : skip? text ts = some r) (ha : Anchored m r) :
    Anchored m ts := by
  obtain ⟨t, rfl, rfl⟩ := skip?_eq_some.mp h
  exact ha.cons hx.isGap

/-- Only `::` needs to be looked at with what follows it. -/
theorem Anchored.of_skip?_ne (hx : HasSolid text) (hne : text ≠ "::") (h : skip? text ts = some r) :
    Anchored m ts := by
  obtain ⟨t, rfl, rfl⟩ := skip?_eq_some.mp h
  exact .of_text hx.isGap hne r

end

/-! ## Lists, item by item -/

def afterItem {α : Type} (item : Reader α) (close : String) (a : α) : Reader (List α) := fun ts =>
  match skip? "," ts with
  | some rest => (commaList item close rest).map fun y => (a :: y.1, y.2)
  | none => (skip? close ts).bind fun r => some ([a], r)

theorem commaList_eq {α : Type} {item : Reader α} (hi : Advances item) (close : String)
    (ts : List Token) : commaList item close ts =
      (item ts).bind fun x => afterItem item close x.1 x.2 := by
  rw [commaList]
  cases hitem : item ts with
  | none => rfl
  | some x =>
    obtain ⟨a, behind⟩ := x
    simp only [Option.bind_some, afterItem]
    cases hs : skip? "," behind with
    | none => cases skip? close behind <;> rfl
    | some rest =>
      have h1 := hi hitem
      have h2 := suffix_of_skip? hs
      simp only [if_pos (show rest.length < ts.length by omega)]

/-! ## Readers made of readers -/

namespace SteadyAt

variable {α β : Type} {m ts : List Token} {p : Reader α} {text : String}

theorem congr {q : Reader α} (he : ∀ us, p us = q us) (h : SteadyAt m q ts) : SteadyAt m p ts := by
  intro a r hp ha
  rw [he] at hp
  obtain ⟨h1, h2⟩ := h hp ha
  refine ⟨h1, fun g us hc => ?_⟩
  rw [he]
  exact h2 hc

theorem pure (m : List Token) (a : α) (ts : List Token) :
    SteadyAt m (fun ts => some (a, ts)) ts := by
  intro b r h ha
  cases h
  exact ⟨ha, fun g us hc => ⟨g, us, rfl, hc⟩⟩

theorem bind {q : α → Reader β} (hp : SteadyAt m p ts)
    (hq : ∀ a r, p ts = some (a, r) → SteadyAt m (q a) r) :
    SteadyAt m (fun us => (p us).bind fun x => q x.1 x.2) ts := by
  intro b r h ha
  obtain ⟨⟨a, mid⟩, h1, h2⟩ := Option.bind_eq_some_iff.mp h
  obtain ⟨hm, hq⟩ := hq a mid h1 h2 ha
  obtain ⟨hts, hp⟩ := hp h1 hm
  refine ⟨hts, fun g us hc => ?_⟩
  obtain ⟨g1, v1, hv1, hc1⟩ := hp hc
  obtain ⟨g2, v2, hv2, hc2⟩ := hq hc1
  exact ⟨g2, v2, Option.bind_eq_some_iff.mpr ⟨_, hv1, hv2⟩, hc2⟩

theorem map (f : α → β) (hp : SteadyAt m p ts) :
    SteadyAt m (fun us => (p us).map fun x => (f x.1, x.2)) ts := by
  refine (hp.bind fun a r _ => pure m (f a) r).congr fun us => ?_
  cases p us <;> rfl

theorem filter (f : α → Bool) (hp : SteadyAt m p ts) :
    SteadyAt m (fun us => (p us).filter fun x => f x.1) ts := by
  intro a r h ha
  obtain ⟨hp', hf⟩ := Option.filter_eq_some_iff.mp h
  obtain ⟨hts, hv⟩ := hp hp' ha
  refine ⟨hts, fun g us hc => ?_⟩
  obtain ⟨g', v, hv, hc'⟩ := hv hc
  exact ⟨g', v, Option.filter_eq_some_iff.mpr ⟨hv, hf⟩, hc'⟩

theorem skip (text : String) {q : Reader β} (hx : HasSolid text)
    (hq : ∀ r, skip? text ts = some r → SteadyAt m q r) :
    SteadyAt m (fun us => (skip? text us).bind q) ts := by
  intro b r h ha
  obtain ⟨mid, h1, h2⟩ := Option.bind_eq_some_iff.mp h
  obtain ⟨hm, hq⟩ := hq mid h1 h2 ha
  refine ⟨hm.of_skip? hx h1, fun g us hc => ?_⟩
  obtain ⟨v1, hv1, hc1⟩ := hc.skip? h1 hx
  obtain ⟨g2, v2, hv2, hc2⟩ := hq hc1
  exact ⟨g2, v2, Option.bind_eq_some_iff.mpr ⟨_, hv1, hv2⟩, hc2⟩

/-- One way on behind a token with a given text, and another without it. -/
theorem skipElse (text : String) {q : Reader α} (hx : HasSolid text)
    (hq : ∀ r, skip? text ts = some r → SteadyAt m q r)
    (hp : skip? text ts = none → SteadyAt m p ts) :
    SteadyAt m (fun us => match skip? text us with
      | some r => q r
      | none => p us) ts := by
  intro a r h ha
  cases hs : skip? text ts with
  | some mid =>
    simp only [hs] at h
    obtain ⟨hm, hq⟩ := hq mid hs h ha
    refine ⟨hm.of_skip? hx hs, fun g us hc => ?_⟩
    obtain ⟨v, hv, hc⟩ := hc.skip? hs hx
    simp only [hv]
    exact hq hc
  | none =>
    simp only [hs] at h
    obtain ⟨hm, hp⟩ := hp hs h ha
    refine ⟨hm, fun g us hc => ?_⟩
    simp only [hc.skip?_none hs hm]
    exact hp hc

end SteadyAt

namespace Steady

variable {m : List Token} {text : String}

theorem name? (m : List Token) : Steady m name? := by
  intro ts a r h ha
  obtain ⟨t, rfl, hn, rfl⟩ := exists_of_name? h
  refine ⟨ha.cons (isGap_of_isName hn), fun g us hc => ?_⟩
  obtain ⟨u, v, rfl, hk, hu, hv⟩ := hc.uncons (isGap_of_isName hn)
  exact ⟨false, v, by rw [Declaration.name?, isName_congr hk hu, if_pos hn, hu], hv⟩

theorem freeName? (m : List Token) : Steady m freeName? :=
  fun ts => (name? m ts).filter fun name => !isReserved name

theorem skipOptional (m : List Token) (text : String) (hx : HasSolid text) :
    Steady m fun ts => some (startsWith text ts, Declaration.skipOptional text ts) := by
  intro ts
  refine (SteadyAt.skipElse text hx (fun r _ => SteadyAt.pure m true r)
    (fun _ => SteadyAt.pure m false ts)).congr fun us => ?_
  unfold startsWith Declaration.skipOptional
  cases skip? text us <;> rfl

/-! ## Runs and lists -/

theorem run (m : List Token) {p : String → Bool} (hp : ∀ text, p text = true → HasSolid text) :
    Steady m fun ts => some ((ts.takeWhile fun t => p t.text).map (·.text),
      ts.dropWhile fun t => p t.text) := by
  intro ts a r h ha
  obtain ⟨rfl, rfl⟩ := Prod.mk.inj (Option.some.inj h)
  clear h
  induction ts with
  | nil =>
    refine ⟨ha, fun g us hus => ⟨g, us, ?_, hus⟩⟩
    rw [hus.eq_of_nil, show m = [] from ha]
    rfl
  | cons t ts ih =>
    cases ht : p t.text with
    | true =>
      have hgap := (hp _ ht).isGap
      simp only [List.dropWhile_cons, List.takeWhile_cons, ht, if_true] at ha ih ⊢
      obtain ⟨hts, hv⟩ := ih ha
      refine ⟨hts.cons hgap, fun g us hus => ?_⟩
      obtain ⟨u, us, rfl, -, hu, hus⟩ := hus.uncons hgap
      obtain ⟨g', v, hv, hcv⟩ := hv hus
      obtain ⟨h1, h2⟩ := Prod.mk.inj (Option.some.inj hv)
      refine ⟨g', v, ?_, hcv⟩
      simp only [List.dropWhile_cons, List.takeWhile_cons, hu, ht, if_true, List.map_cons, h1, h2]
    | false =>
      simp only [List.dropWhile_cons, List.takeWhile_cons, ht] at ha ⊢
      refine ⟨ha, fun g us hus => ⟨g, us, ?_, hus⟩⟩
      obtain ⟨u, us, rfl, -, hu, -⟩ := hus.uncons ha.head
      simp [hu, ht]

theorem commaList {α : Type} {item : Reader α} (close : String) (hi : Advances item)
    (hx : HasSolid close) {ts : List Token}
    (h : ∀ xs, xs.length ≤ ts.length → SteadyAt m item xs) :
    SteadyAt m (Declaration.commaList item close) ts := by
  induction hn : ts.length using Nat.strongRecOn generalizing ts with
  | ind n ih =>
    refine ((h ts (Nat.le_refl _)).bind fun a r hitem =>
      SteadyAt.skipElse "," (by decide)
        (fun rest hs => (ih rest.length ?_ (fun xs hxs => h xs ?_) rfl).map fun as => a :: as)
        fun _ => SteadyAt.skip close hx fun v _ => SteadyAt.pure m [a] v).congr
          (commaList_eq hi close)
    all_goals
      have h1 := (hi hitem).2
      have h2 := (suffix_of_skip? hs).2
      omega

/-! ## Default values -/

/-- A default value goes on behind a token or ends before it, by the text of the token. -/
theorem skipDefault_cons (close : String) (nesting angles : Nat) (text : String) :
    (∃ n a, ∀ t ts, t.text = text →
      skipDefault close nesting angles (t :: ts) = skipDefault close n a ts) ∨
    ∀ t ts, t.text = text → skipDefault close nesting angles (t :: ts) = t :: ts := by
  by_cases h1 : isOpening text
  · exact .inl ⟨nesting + 1, angles, fun t ts ht => by rw [skipDefault, ht, if_pos h1]⟩
  by_cases h2 : isClosing text ∧ 0 < nesting
  · exact .inl ⟨nesting - 1, angles, fun t ts ht => by
      rw [skipDefault, ht, if_neg h1, if_pos h2]⟩
  by_cases h3 : text = ")"
  · exact .inr fun t ts ht => by rw [skipDefault, ht, if_neg h1, if_neg h2, if_pos h3]
  by_cases h4 : text = "<" ∧ close = ">"
  · exact .inl ⟨nesting, angles + 1, fun t ts ht => by
      rw [skipDefault, ht, if_neg h1, if_neg h2, if_neg h3, if_pos h4]⟩
  by_cases h5 : text = ">" ∧ 0 < angles
  · exact .inl ⟨nesting, angles - 1, fun t ts ht => by
      rw [skipDefault, ht, if_neg h1, if_neg h2, if_neg h3, if_neg h4, if_pos h5]⟩
  by_cases h6 : nesting = 0 ∧ angles = 0 ∧ (text = "," ∨ text = close)
  · exact .inr fun t ts ht => by
      rw [skipDefault, ht, if_neg h1, if_neg h2, if_neg h3, if_neg h4, if_neg h5, if_pos h6]
  · exact .inl ⟨nesting, angles, fun t ts ht => by
      rw [skipDefault, ht, if_neg h1, if_neg h2, if_neg h3, if_neg h4, if_neg h5, if_neg h6]⟩

theorem skipDefault_gap {t : Token} (ht : t.isGap = true) {close : String} (hx : HasSolid close)
    (nesting angles : Nat) (ts : List Token) :
    skipDefault close nesting angles (t :: ts) = skipDefault close nesting angles ts := by
  have hne : ∀ text, HasSolid text → t.text ≠ text := fun _ => ne_of_isGap ht
  simp [skipDefault, isOpening, isClosing, hne _ hx, hne "(" (by decide), hne "[" (by decide),
    hne "\x7b" (by decide), hne ")" (by decide), hne "]" (by decide), hne "\x7d" (by decide),
    hne "<" (by decide), hne ">" (by decide), hne "," (by decide)]

theorem continues_skipDefault {m ts us : List Token} {close : String} (hx : HasSolid close)
    {g : Bool} (hc : Continues m g ts us) (nesting angles : Nat)
    (ha : Anchored m (skipDefault close nesting angles ts)) :
    ∃ g', Continues m g' (skipDefault close nesting angles ts)
      (skipDefault close nesting angles us) := by
  induction hc generalizing nesting angles with
  | done g =>
    have hm : m = [] := ha
    subst hm
    exact ⟨g, .done g⟩
  | @keep g t u ts us hk ht hs hc ih =>
    rcases skipDefault_cons close nesting angles t.text with ⟨n, a, h⟩ | h
    · rw [h t ts rfl] at ha
      rw [h t ts rfl, h u us ht]
      exact ih n a ha
    · rw [h t ts rfl, h u us ht]
      exact ⟨g, .keep hk ht hs hc⟩
  | drop hgap hc ih =>
    rw [skipDefault_gap hgap hx] at ha ⊢
    exact ih _ _ ha

/-- An optional default value. Gaps may stand right behind the equals sign. -/
theorem skipAssigned (m : List Token) (close : String) (hx : HasSolid close) :
    Steady m fun ts => some ((), Declaration.skipAssigned close ts) := by
  intro ts a r h ha
  obtain rfl : Declaration.skipAssigned close ts = r := (Prod.mk.inj (Option.some.inj h)).2
  unfold Declaration.skipAssigned at ha ⊢
  cases hs : skip? "=" ts with
  | none =>
    simp only [hs] at ha ⊢
    refine ⟨ha, fun g us hc => ⟨g, us, ?_, hc⟩⟩
    simp only [hc.skip?_none hs ha]
  | some mid =>
    simp only [hs] at ha ⊢
    refine ⟨.of_skip?_ne (by decide) (by decide) hs, fun g us hc => ?_⟩
    obtain ⟨v, hv, hc⟩ := hc.skip? hs (by decide)
    obtain ⟨g', hc⟩ := continues_skipDefault hx hc 0 0 ha
    exact ⟨g', _, by simp only [hv], hc⟩

end Steady

end HeaderOutline
