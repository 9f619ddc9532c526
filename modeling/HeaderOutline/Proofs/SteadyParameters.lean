import HeaderOutline.Declaration.Callable
import HeaderOutline.Proofs.SteadyTypes
/-!
# Steady readers of parameters and what follows them

Between the parentheses and behind them stand four places where a reader takes gaps or looks ahead:
default values, the groups of `noexcept` and `throw`, the `= 0` that is put back when nothing fits
behind it, and the lone `void`, which is no parameter only when the parenthesis follows at once.

Results:
* `Steady.parameters?`, `Steady.tail?`, `Steady.parametersAndTail?`.
* `tail?_eq`: a tail without its look ahead.
-/
namespace HeaderOutline
open Text Declaration Token

namespace Steady

/-! ## Parameters -/

theorem parameterName (m : List Token) : Steady m fun ts => some (parameterName ts) := by
  intro ts a r h ha
  obtain ⟨rfl, rfl⟩ := Prod.mk.inj (Option.some.inj h)
  clear h
  simp only [Declaration.parameterName] at ha ⊢
  cases hn : Declaration.freeName? ts with
  | some x =>
    obtain ⟨n, rest⟩ := x
    simp only [hn] at ha ⊢
    obtain ⟨hts, hv⟩ := freeName? m ts hn ha
    refine ⟨hts, fun g us hus => ?_⟩
    obtain ⟨g', v, hv, hcv⟩ := hv hus
    exact ⟨g', v, by simp only [hv], hcv⟩
  | none =>
    simp only [hn] at ha ⊢
    refine ⟨ha, fun g us hus => ⟨g, us, ?_, hus⟩⟩
    have hnone : Declaration.freeName? us = none := by
      cases ts with
      | nil =>
        rw [hus.eq_of_nil, show m = [] from ha]
        rfl
      | cons t ts =>
        obtain ⟨u, us, rfl, hk, hu, -⟩ := hus.uncons ha.head
        rw [Declaration.freeName?, Declaration.name?] at hn ⊢
        rw [isName_congr hk hu, hu]
        cases hname : t.isName <;> simp_all
    simp only [hnone]

theorem parameter? (m : List Token) : Steady m parameter? := by
  intro ts
  refine (SteadyAt.skipElse "..." (by decide)
    (fun r _ => SteadyAt.pure m (Parameter.mk (.ofTokens ["..."]) none) r)
    fun _ => (type? m ts).bind fun type behind _ => (parameterName m behind).bind fun name r _ =>
      (skipAssigned m ")" (by decide) r).map fun _ => Parameter.mk type name).congr
        fun us => ?_
  unfold Declaration.parameter?
  cases skip? "..." us with
  | some r => rfl
  | none => cases Declaration.type? us <;> rfl

/-- The word `void` is a type when a gap or nothing follows it, but such a list of parameters does
not close. -/
theorem commaList_void {t : Token} (ht : t.text = "void") {ts : List Token}
    (hts : ∀ u ∈ ts.head?, u.isGap = true) :
    Declaration.commaList Declaration.parameter? ")" (t :: ts) = none := by
  have hne : ∀ u ∈ ts.head?, ∀ text, HasSolid text → u.text ≠ text := fun u hu _ =>
    ne_of_isGap (hts u hu)
  have hskip : ∀ text, HasSolid text → Declaration.skip? text ts = none := fun text hx => by
    cases ts with
    | nil => rfl
    | cons u ts => rw [skip?, if_neg (hne u rfl text hx)]
  have hnative : ts.takeWhile (isNative ·.text) = [] ∧ ts.dropWhile (isNative ·.text) = ts := by
    cases ts with
    | nil => exact ⟨rfl, rfl⟩
    | cons u ts =>
      have hu : isNative u.text = false := by
        have hall : ∀ text ∈ nativeWords, HasSolid text := by decide
        refine Bool.eq_false_iff.mpr fun h => ?_
        exact hne u rfl _ (hall _ (by simpa [isNative] using h)) rfl
      simp [hu]
  have hfront : Declaration.typeFront? (t :: ts) = some ((["void"], true), ts) := by
    simp [Declaration.typeFront?, Declaration.bareType?, Declaration.skipOptional, skip?,
      startsWith, ht, hnative, show isNative "void" = true by decide]
  have hmarks : Declaration.typeMarks ts = ([], ts) := by
    cases ts with
    | nil => rfl
    | cons u ts =>
      simp [Declaration.typeMarks, Declaration.stars, Declaration.ampersands,
        hne u rfl "*" (by decide), hne u rfl "&" (by decide)]
  have hname : Declaration.parameterName ts = (none, ts) := by
    cases ts with
    | nil => rfl
    | cons u ts =>
      have hu : u.isName = false := by
        refine Bool.eq_false_iff.mpr fun h => ?_
        have hgap := hts u rfl
        rw [isGap_of_isName h] at hgap
        cases hgap
      simp [Declaration.parameterName, Declaration.freeName?, Declaration.name?, hu]
  have hdots : Declaration.skip? "..." (t :: ts) = none := by simp [skip?, ht]
  have hvalue : Declaration.skipAssigned ")" ts = ts := by
    simp only [Declaration.skipAssigned, hskip "=" (by decide)]
  have hitem : Declaration.parameter? (t :: ts) = some (⟨.ofTokens ["void"], none⟩, ts) := by
    simp [Declaration.parameter?, type?_eq, hfront, afterFront, HeaderOutline.markedType, hmarks,
      hname, hdots, hvalue]
  rw [Declaration.commaList, hitem]
  simp only [hskip "," (by decide), hskip ")" (by decide), Option.map_none]

/-- The word `void` and a parenthesis, where there were none before gaps were left out: only a gap
could hide the parenthesis, and then the list would not close. -/
theorem skip?_void {m ts us : List Token} {g : Bool} (hus : Continues m g ts us)
    (hts : Anchored m ts) (hs : (skip? "void" ts).bind (skip? ")") = none)
    (hlist : Declaration.commaList Declaration.parameter? ")" ts ≠ none) :
    (skip? "void" us).bind (skip? ")") = none := by
  cases hw : skip? "void" ts with
  | none => rw [hus.skip?_none hw hts]; rfl
  | some r =>
    rw [hw, Option.bind_some] at hs
    obtain ⟨t, rfl, ht⟩ := skip?_eq_some.mp hw
    obtain ⟨v, hv, hc⟩ := hus.skip? hw (by decide)
    rw [hv, Option.bind_some]
    cases r with
    | nil => exact absurd (commaList_void ht (by simp)) hlist
    | cons u r =>
      have hu : u.isGap = false := Bool.eq_false_iff.mpr fun hu =>
        hlist (commaList_void ht (by simpa using hu))
      obtain ⟨u', v, rfl, -, hu', -⟩ := hc.uncons hu
      rw [skip?] at hs ⊢
      rw [hu']
      split at hs
      · cases hs
      · next hne => rw [if_neg hne]

/-- What stands between the parentheses, when something does. -/
theorem voidOrList (m ts : List Token) :
    SteadyAt m (fun us => match (skip? "void" us).bind (skip? ")") with
      | some r => some ([], r)
      | none => Declaration.commaList Declaration.parameter? ")" us) ts := by
  intro a r h ha
  cases hs : (skip? "void" ts).bind (skip? ")") with
  | some mid =>
    simp only [hs, Option.some.injEq, Prod.mk.injEq] at h
    obtain ⟨rfl, rfl⟩ := h
    obtain ⟨r1, h1, h2⟩ := Option.bind_eq_some_iff.mp hs
    refine ⟨.of_skip?_ne (by decide) (by decide) h1, fun g us hus => ?_⟩
    obtain ⟨v1, hv1, hc1⟩ := hus.skip? h1 (by decide)
    obtain ⟨v2, hv2, hc2⟩ := hc1.skip? h2 (by decide)
    exact ⟨false, v2, by simp [hv1, hv2], hc2⟩
  | none =>
    simp only [hs] at h
    obtain ⟨hts, hv⟩ := commaList ")" advances_parameter? (by decide) (fun xs _ => parameter? m xs)
      h ha
    refine ⟨hts, fun g us hus => ?_⟩
    obtain ⟨g', v, hv, hcv⟩ := hv hus
    have hnone := skip?_void hus hts hs (by rw [h]; exact Option.some_ne_none _)
    exact ⟨g', v, by simp only [hnone, hv], hcv⟩

theorem parameters? (m : List Token) : Steady m parameters? := by
  intro ts
  refine (SteadyAt.skipElse ")" (by decide) (fun r _ => SteadyAt.pure m [] r)
    fun _ => voidOrList m ts).congr fun us => ?_
  unfold Declaration.parameters?
  cases skip? ")" us <;> rfl

/-! ## Tails -/

/-- The qualifiers go on behind a token or end before it, by the text of the token. They end only
outside a group. -/
theorem qualifiers?_cons (mayGroup : Bool) (depth : Nat) (isConst : Bool) (text : String) :
    (∃ b d c, (depth = 0 → HasSolid text ∧ text ≠ "::") ∧ ∀ t ts, t.text = text →
      Declaration.qualifiers? mayGroup depth isConst (t :: ts) =
        Declaration.qualifiers? b d c ts) ∨
    depth = 0 ∧ ∀ t ts, t.text = text →
      Declaration.qualifiers? mayGroup depth isConst (t :: ts) = some (isConst, t :: ts) := by
  by_cases h0 : 0 < depth
  · have hd : depth = 0 → HasSolid text ∧ text ≠ "::" := fun h => by omega
    by_cases h1 : text = "("
    · exact .inl ⟨_, _, _, hd, fun t ts ht => by
        rw [Declaration.qualifiers?, ht, if_pos h0, if_pos h1]⟩
    by_cases h2 : text = ")"
    · exact .inl ⟨_, _, _, hd, fun t ts ht => by
        rw [Declaration.qualifiers?, ht, if_pos h0, if_neg h1, if_pos h2]⟩
    · exact .inl ⟨_, _, _, hd, fun t ts ht => by
        rw [Declaration.qualifiers?, ht, if_pos h0, if_neg h1, if_neg h2]⟩
  by_cases h1 : mayGroup ∧ text = "("
  · exact .inl ⟨_, _, _, fun _ => h1.2 ▸ by decide, fun t ts ht => by
      rw [Declaration.qualifiers?, ht, if_neg h0, if_pos h1]⟩
  by_cases h2 : text = "const"
  · exact .inl ⟨_, _, _, fun _ => h2 ▸ by decide, fun t ts ht => by
      rw [Declaration.qualifiers?, ht, if_neg h0, if_neg h1, if_pos h2]⟩
  by_cases h3 : text = "override" ∨ text = "final"
  · exact .inl ⟨_, _, _, fun _ => by rcases h3 with rfl | rfl <;> decide, fun t ts ht => by
      rw [Declaration.qualifiers?, ht, if_neg h0, if_neg h1, if_neg h2, if_pos h3]⟩
  by_cases h4 : text = "noexcept" ∨ text = "throw"
  · exact .inl ⟨_, _, _, fun _ => by rcases h4 with rfl | rfl <;> decide, fun t ts ht => by
      rw [Declaration.qualifiers?, ht, if_neg h0, if_neg h1, if_neg h2, if_neg h3, if_pos h4]⟩
  · exact .inr ⟨by omega, fun t ts ht => by
      rw [Declaration.qualifiers?, ht, if_neg h0, if_neg h1, if_neg h2, if_neg h3, if_neg h4]⟩

theorem qualifiers?_gap {t : Token} (ht : t.isGap = true) {mayGroup : Bool} {depth : Nat}
    (hd : 0 < depth) (isConst : Bool) (ts : List Token) :
    Declaration.qualifiers? mayGroup depth isConst (t :: ts) =
      Declaration.qualifiers? mayGroup depth isConst ts := by
  have hinside : ∀ us, Declaration.qualifiers? false depth isConst us =
      Declaration.qualifiers? mayGroup depth isConst us := fun us => by
    cases us <;> simp [Declaration.qualifiers?, hd]
  rw [Declaration.qualifiers?, if_pos hd, if_neg (ne_of_isGap ht (by decide)),
    if_neg (ne_of_isGap ht (by decide)), hinside]

/-- The qualifiers of a function; inside a group they may be at a gap. -/
theorem continues_qualifiers? {m ts us r : List Token} {mayGroup isConst b : Bool} {depth : Nat}
    {g : Bool} (hus : Continues m g ts us)
    (h : Declaration.qualifiers? mayGroup depth isConst ts = some (b, r)) (ha : Anchored m r) :
    ∃ g' v, Declaration.qualifiers? mayGroup depth isConst us = some (b, v) ∧
      Continues m g' r v := by
  induction hus generalizing mayGroup depth isConst with
  | done g =>
    rw [Declaration.qualifiers?] at h
    split at h
    · next hd =>
      cases h
      have hm : m = [] := ha
      subst hm
      exact ⟨g, [], by rw [Declaration.qualifiers?, if_pos hd], .done g⟩
    · cases h
  | @keep g t u ts us hk ht hs hus ih =>
    rcases qualifiers?_cons mayGroup depth isConst t.text with ⟨b', d', c', -, hx⟩ | ⟨-, hx⟩
    · rw [hx t ts rfl] at h
      rw [hx u us ht]
      exact ih h
    · rw [hx t ts rfl] at h
      cases h
      exact ⟨g, u :: us, hx u us ht, .keep hk ht hs hus⟩
  | @drop g t ts us hgap hus ih =>
    by_cases hd : 0 < depth
    · rw [qualifiers?_gap hgap hd] at h
      exact ih h
    · rcases qualifiers?_cons mayGroup depth isConst t.text with ⟨b', d', c', hx, -⟩ | ⟨-, hx⟩
      · rw [(hx (by omega)).1.isGap] at hgap
        cases hgap
      · rw [hx t ts rfl] at h
        cases h
        rw [ha.head] at hgap
        cases hgap

theorem qualifiers? (m : List Token) (isConst : Bool) :
    Steady m (qualifiers? false 0 isConst) := by
  intro ts b r h ha
  refine ⟨?_, fun g us hus => continues_qualifiers? hus h ha⟩
  cases ts with
  | nil => rw [Declaration.qualifiers?, if_pos rfl] at h; cases h; exact ha
  | cons t ts =>
    rcases qualifiers?_cons false 0 isConst t.text with ⟨b', d', c', hx, -⟩ | ⟨-, hx⟩
    · exact .of_text (hx rfl).1.isGap (hx rfl).2 ts
    · rw [hx t ts rfl] at h
      cases h
      exact ha

end Steady

def ending (isConst : Bool) (spec : Option Specifier) (ts : List Token) :
    Option (Tail × List Token) :=
  match skip? ";" ts with
  | some last => some (⟨isConst, spec, true⟩, last)
  | none => if opensBody ts then some (⟨isConst, spec, false⟩, ts) else none

/-- The end of a declaration behind an equals sign. -/
def afterEquals (isConst : Bool) : List Token → Option (Tail × List Token)
  | [] => none
  | t :: ts => (specifierOf? t.text).bind fun spec => ending isConst (some spec) ts

/-- The end of a declaration behind its qualifiers. -/
def afterQualifiers (isConst : Bool) (ts : List Token) : Option (Tail × List Token) :=
  match skip? "=" ts with
  | some rest => afterEquals isConst rest
  | none => ending isConst none ts

theorem ending_specifier (isConst : Bool) (ts : List Token) :
    ending isConst (specifier ts).1 (specifier ts).2 = afterQualifiers isConst ts := by
  cases ts with
  | nil => rfl
  | cons e ts =>
    by_cases he : e.text = "="
    · have hskip : skip? "=" (e :: ts) = some ts := by rw [skip?, if_pos he]
      -- Neither a semicolon nor a body begins with an equals sign.
      have hend : ending isConst none (e :: ts) = none := by simp [ending, skip?, opensBody, he]
      simp only [afterQualifiers, hskip]
      cases ts with
      | nil => exact hend
      | cons s ts =>
        rw [specifier, if_pos he, afterEquals]
        cases specifierOf? s.text with
        | none => exact hend
        | some spec => rfl
    · have hskip : skip? "=" (e :: ts) = none := by rw [skip?, if_neg he]
      simp only [afterQualifiers, hskip]
      cases ts with
      | nil => rfl
      | cons s ts => rw [specifier, if_neg he]

/-- The end of a declaration is its qualifiers and what follows them. -/
theorem tail?_eq (ts : List Token) :
    tail? ts = (qualifiers? false 0 false ts).bind fun x => afterQualifiers x.1 x.2 := by
  simp only [← ending_specifier]
  unfold tail?
  cases qualifiers? false 0 false ts <;> rfl

namespace Steady

theorem ending (m : List Token) (isConst : Bool) (spec : Option Specifier) :
    Steady m (ending isConst spec) := by
  intro ts
  have hbody : SteadyAt m (fun us => if opensBody us then some (Tail.mk isConst spec false, us)
      else none) ts := by
    intro a r h ha
    simp only at h
    split at h
    · next ho =>
      cases h
      refine ⟨ha, fun g us hus => ⟨g, us, ?_, hus⟩⟩
      have hopens : opensBody us = true := by
        cases ts with
        | nil => rw [hus.eq_of_nil, show m = [] from ha]; rfl
        | cons t ts =>
          obtain ⟨u, us, rfl, -, hu, -⟩ := hus.uncons ha.head
          rw [opensBody] at ho ⊢
          rwa [hu]
      simp only [hopens, if_true]
    · cases h
  exact SteadyAt.skipElse ";" (by decide)
    (fun r _ => SteadyAt.pure m (Tail.mk isConst spec true) r) fun _ => hbody

theorem hasSolid_of_specifierOf? {text : String} {spec : Specifier}
    (h : specifierOf? text = some spec) : HasSolid text := by
  unfold specifierOf? at h
  split at h
  · next he => rw [he]; decide
  · split at h
    · next he => rw [he]; decide
    · split at h
      · next he => rw [he]; decide
      · cases h

theorem afterEquals (m : List Token) (isConst : Bool) : Steady m (afterEquals isConst) := by
  intro ts a r h ha
  cases ts with
  | nil => cases h
  | cons t ts =>
    rw [HeaderOutline.afterEquals] at h
    obtain ⟨spec, hspec, h⟩ := Option.bind_eq_some_iff.mp h
    have hgap := (hasSolid_of_specifierOf? hspec).isGap
    obtain ⟨hts, hv⟩ := ending m isConst (some spec) ts h ha
    refine ⟨hts.cons hgap, fun g us hus => ?_⟩
    obtain ⟨u, us, rfl, -, hu, hus⟩ := hus.uncons hgap
    obtain ⟨g', v, hv, hcv⟩ := hv hus
    exact ⟨g', v, by rw [HeaderOutline.afterEquals, hu, hspec, Option.bind_some, hv], hcv⟩

theorem afterQualifiers (m : List Token) (isConst : Bool) : Steady m (afterQualifiers isConst) :=
  fun ts => SteadyAt.skipElse "=" (by decide) (fun r _ => afterEquals m isConst r)
    fun _ => ending m isConst none ts

theorem tail? (m : List Token) : Steady m tail? := fun ts =>
  ((qualifiers? m false ts).bind fun isConst r _ => afterQualifiers m isConst r).congr tail?_eq

theorem parametersAndTail? (m : List Token) : Steady m parametersAndTail? := by
  intro ts
  refine ((parameters? m ts).bind fun params r _ =>
    (tail? m r).map fun tail => (params, tail)).congr fun us => ?_
  unfold Declaration.parametersAndTail?
  cases Declaration.parameters? us with
  | none => rfl
  | some x => cases h : Declaration.tail? x.2 <;> simp [h]

end Steady

end HeaderOutline
