import HeaderOutline.Declaration.Template
import HeaderOutline.Proofs.SteadyReaders
import HeaderOutline.Proofs.TypeReading
/-!
# Steady readers of types

Template heads, specifiers, names and types are read alike when gaps are left out. A type takes as
much as it can, so it matters what stands behind it: a `::`, a `<`, a `*` or an `&` behind a gap
would be taken once the gap is gone. `laterParts` is the reader for which a place before `::` is
anchored only with the token behind it.

Results:
* `Steady.front?`, `Steady.qualifiedName?`, `Steady.type?`.
* `type?_eq`: a type without the tests on lengths that its recursion needs.
-/
namespace HeaderOutline
open Text Declaration Token

namespace Steady

/-! ## Template heads and specifiers -/

theorem templateItem? (m : List Token) : Steady m templateItem? := by
  intro ts
  have hname : ∀ r, SteadyAt m (fun us => (Declaration.name? us).bind fun x =>
      (some ((), Declaration.skipAssigned ">" x.2)).map fun y => (x.1, y.2)) r := fun r =>
    (name? m r).bind fun a v _ => (skipAssigned m ">" (by decide) v).map fun _ => a
  refine (SteadyAt.skipElse "typename" (by decide) (fun r _ => hname r)
    fun _ => SteadyAt.skip "class" (by decide) fun r _ => hname r).congr fun us => ?_
  unfold Declaration.templateItem?
  cases skip? "typename" us with
  | some r => cases hn : Declaration.name? r <;> simp [hn]
  | none =>
    cases skip? "class" us with
    | some r => cases hn : Declaration.name? r <;> simp [hn]
    | none => rfl

theorem templateHead? (m : List Token) : Steady m templateHead? := by
  intro ts
  refine (SteadyAt.skipElse "template" (by decide)
    (fun r _ => SteadyAt.skip "<" (by decide) fun inner _ =>
      SteadyAt.skipElse ">" (by decide) (fun v _ => SteadyAt.pure m (some (TemplateParams.mk [])) v)
        fun _ => (commaList ">" advances_templateItem? (by decide)
          fun xs _ => templateItem? m xs).map fun names => some (TemplateParams.mk names))
    fun _ => SteadyAt.pure m none ts).congr fun us => ?_
  unfold Declaration.templateHead?
  cases skip? "template" us with
  | none => rfl
  | some r =>
    simp only
    cases skip? "<" r <;> rfl

theorem specifiers (m : List Token) (isStatic isVirtual : Bool) :
    Steady m fun ts => some (Declaration.specifiers isStatic isVirtual ts) := by
  intro ts
  induction hn : ts.length using Nat.strongRecOn generalizing ts isStatic isVirtual with
  | ind n ih =>
    have hlt : ∀ {text r}, skip? text ts = some r → r.length < n := fun h =>
      hn ▸ (suffix_of_skip? h).2
    refine (SteadyAt.skipElse "static" (by decide)
      (fun r h => ih _ (hlt h) true isVirtual r rfl) fun _ =>
      SteadyAt.skipElse "virtual" (by decide)
        (fun r h => ih _ (hlt h) isStatic true r rfl) fun _ =>
        SteadyAt.skipElse "inline" (by decide)
          (fun r h => ih _ (hlt h) isStatic isVirtual r rfl) fun _ =>
          SteadyAt.skipElse "constexpr" (by decide)
            (fun r h => ih _ (hlt h) isStatic isVirtual r rfl) fun _ =>
            SteadyAt.skipElse "explicit" (by decide)
              (fun r h => ih _ (hlt h) isStatic isVirtual r rfl) fun _ =>
              SteadyAt.pure m (isStatic, isVirtual) ts).congr fun us => ?_
    cases us with
    | nil => rfl
    | cons t us => grind [Declaration.specifiers, Declaration.skip?]

theorem front? (m : List Token) : Steady m front? := by
  intro ts
  refine ((templateHead? m ts).bind fun template r _ =>
    (specifiers m false false r).map fun words => (⟨template, words.1, words.2⟩ : Front)).congr
      fun us => ?_
  unfold Declaration.front?
  cases Declaration.templateHead? us <;> rfl

/-! ## Types -/

theorem laterParts (m : List Token) : Steady m fun ts => some (Declaration.laterParts ts) := by
  intro ts a r h ha
  obtain ⟨rfl, rfl⟩ := Prod.mk.inj (Option.some.inj h)
  clear h
  fun_induction Declaration.laterParts ts with
  | case1 c n ts hcn parts rest heq ih =>
    rw [heq] at ih
    obtain ⟨hts, hv⟩ := ih ha
    have hc : c.isGap = false := HasSolid.isGap (by rw [hcn.1]; decide)
    have hn := isGap_of_isName hcn.2
    refine ⟨(hts.cons hn).cons hc, fun g us hus => ?_⟩
    obtain ⟨c', us, rfl, -, hc', hus⟩ := hus.uncons hc
    obtain ⟨n', us, rfl, hk, hn', hus⟩ := hus.uncons hn
    obtain ⟨g', v, hv, hcv⟩ := hv hus
    refine ⟨g', v, ?_, hcv⟩
    have hcond : c'.text = "::" ∧ n'.isName = true :=
      ⟨hc'.trans hcn.1, (isName_congr hk hn').trans hcn.2⟩
    have hv : Declaration.laterParts us = (parts, v) := Option.some.inj hv
    simp only [Declaration.laterParts, if_pos hcond, hv, hn']
  | case2 c n ts hcn =>
    refine ⟨ha, fun g us hus => ⟨g, us, ?_, hus⟩⟩
    obtain ⟨c', us, rfl, -, hc', hus⟩ := hus.uncons ha.head
    cases us with
    | nil => rfl
    | cons n' us =>
      suffices hno : ¬(c'.text = "::" ∧ n'.isName = true) by
        simp only [Declaration.laterParts, if_neg hno]
      rintro ⟨h1, h2⟩
      obtain ⟨n'', us, heq, hk, hn', -⟩ := hus.uncons (ha.2 (hc' ▸ h1))
      obtain ⟨rfl, rfl⟩ := List.cons.inj heq
      exact hcn ⟨hc' ▸ h1, (isName_congr hk hn') ▸ h2⟩
  | case3 ts hts =>
    refine ⟨ha, fun g us hus => ⟨g, us, ?_, hus⟩⟩
    cases ts with
    | nil =>
      rw [hus.eq_of_nil, show m = [] from ha]
      rfl
    | cons c ts =>
      cases ts with
      | cons n ts => exact absurd rfl (hts c n ts)
      | nil =>
        obtain ⟨c', us, rfl, -, hc', hus⟩ := hus.uncons ha.1
        obtain rfl := hus.eq_of_nil
        cases us with
        | nil => rfl
        | cons n' us =>
          suffices hno : ¬(c'.text = "::" ∧ n'.isName = true) by
            simp only [Declaration.laterParts, if_neg hno]
          rintro ⟨h1, -⟩
          cases ha.2 (hc' ▸ h1)

theorem qualifiedName? (m : List Token) : Steady m qualifiedName? := by
  intro ts
  refine ((skipOptional m "::" (by decide) ts).bind fun root r _ =>
    (freeName? m r).bind fun first v _ => (laterParts m v).map fun parts =>
      (if root then "::" else "") ++ first ++ parts).congr fun us => ?_
  unfold Declaration.qualifiedName?
  simp only [Option.bind_some]
  cases Declaration.freeName? (Declaration.skipOptional "::" us) <;> rfl

theorem bareType? (m : List Token) : Steady m bareType? := by
  intro ts
  have hnative : ∀ text, isNative text = true → HasSolid text := by
    have hall : ∀ text ∈ nativeWords, HasSolid text := by decide
    exact fun text h => hall text (by simpa [isNative] using h)
  refine ((run m hnative ts).bind fun texts r _ =>
    (?_ : SteadyAt m (fun us => if texts = [] then
      (Declaration.qualifiedName? us).map fun x => (([x.1], false), x.2)
      else some ((texts, true), us)) r)).congr fun us => ?_
  · split
    · exact (qualifiedName? m r).map fun name => ([name], false)
    · exact SteadyAt.pure m (texts, true) r
  · unfold Declaration.bareType?
    simp only [Option.bind_some, List.map_eq_nil_iff]
    split
    · next h =>
      have hd : us.dropWhile (fun t => isNative t.text) = us := by
        have := List.takeWhile_append_dropWhile (p := fun t : Token => isNative t.text) (l := us)
        rwa [h] at this
      rw [if_pos h, hd]
    · next t natives h =>
      rw [if_neg (by simp [h]), h]

theorem typeFront? (m : List Token) : Steady m typeFront? := by
  intro ts
  refine ((skipOptional m "const" (by decide) ts).bind fun c r _ =>
    (bareType? m r).map fun front =>
      (if c then "const" :: front.1 else front.1, front.2)).congr fun us => ?_
  unfold Declaration.typeFront?
  simp only [Option.bind_some]

theorem stars (m : List Token) : Steady m fun ts => some (Declaration.stars ts) := by
  intro ts
  induction hn : ts.length using Nat.strongRecOn generalizing ts with
  | ind n ih =>
    refine (SteadyAt.skipElse "*" (by decide)
      (fun r h => (ih _ (hn ▸ (suffix_of_skip? h).2) r rfl).map fun marks => "*" :: marks)
      fun _ => SteadyAt.pure m [] ts).congr fun us => ?_
    cases us with
    | nil => rfl
    | cons t us => by_cases ht : t.text = "*" <;> simp [Declaration.stars, Declaration.skip?, ht]

theorem ampersands (m : List Token) (n : Nat) :
    Steady m fun ts => some (Declaration.ampersands n ts) := by
  induction n with
  | zero => exact fun ts => (SteadyAt.pure m [] ts).congr fun us => rfl
  | succ n ih =>
    intro ts
    refine (SteadyAt.skipElse "&" (by decide)
      (fun r _ => (ih r).map fun marks => "&" :: marks)
      fun _ => SteadyAt.pure m [] ts).congr fun us => ?_
    cases us with
    | nil => rfl
    | cons t us =>
      by_cases ht : t.text = "&" <;> simp [Declaration.ampersands, Declaration.skip?, ht]

theorem typeMarks (m : List Token) : Steady m fun ts => some (Declaration.typeMarks ts) := by
  intro ts
  exact ((stars m ts).bind fun pointers r _ => (ampersands m 2 r).map fun references =>
    pointers ++ references).congr fun us => rfl

end Steady

/-- The marks at the end of a type that begins with the words. -/
def markedType (words : List String) (ts : List Token) : Option (TypeExpr × List Token) :=
  (some (typeMarks ts)).map fun x => (.ofTokens (words ++ x.1), x.2)

/-- What follows the front of a type: template arguments, if it may have some, and marks. -/
def afterFront (front : List String × Bool) (ts : List Token) : Option (TypeExpr × List Token) :=
  if front.2 then markedType front.1 ts
  else match skip? "<" ts with
    | some inner => (arguments? inner).bind fun x =>
      (some (typeMarks x.2)).map fun y =>
        (((TypeExpr.ofTokens (front.1 ++ ["<"])).append (.ofGroups x.1)).append
          (.ofTokens (">" :: y.1)), y.2)
    | none => markedType front.1 ts

/-- A type is its front and what follows it, without the tests on lengths. -/
theorem type?_eq (ts : List Token) : type? ts =
    (typeFront? ts).bind fun x => afterFront x.1 x.2 := by
  rw [type?]
  cases hf : typeFront? ts with
  | none => rfl
  | some x =>
    obtain ⟨⟨front, native⟩, behind⟩ := x
    simp only [Option.bind_some, argumentsOf?, afterFront]
    cases native with
    | true => rfl
    | false =>
      simp only [Bool.false_eq_true, if_false]
      cases hs : skip? "<" behind with
      | none => rfl
      | some inner =>
        have h1 := advances_typeFront? hf
        have h2 := suffix_of_skip? hs
        simp only [if_pos (show inner.length < ts.length by omega)]
        cases arguments? inner <;> rfl

namespace Steady

/-- An argument is read as steadily as the type that begins there. -/
theorem argument? {m ts : List Token} (h : SteadyAt m Declaration.type? ts) :
    SteadyAt m Declaration.argument? ts := by
  intro a r ha hr
  cases ts with
  | nil => rw [Declaration.argument?] at ha; cases ha
  | cons t ts =>
    rw [Declaration.argument?] at ha
    split at ha
    · next hn =>
      cases ha
      have hgap : t.isGap = false := by
        simp only [Token.isNumber, Bool.and_eq_true, beq_iff_eq] at hn
        simp [isGap, hn.1]
      refine ⟨hr.cons hgap, fun g us hus => ?_⟩
      obtain ⟨u, us, rfl, hk, hu, hus⟩ := hus.uncons hgap
      refine ⟨false, us, ?_, hus⟩
      rw [Declaration.argument?, if_pos ((isNumber_congr hk hu).trans hn), hu]
    · next hn =>
      obtain ⟨hts, hv⟩ := h ha hr
      refine ⟨hts, fun g us hus => ?_⟩
      obtain ⟨g', v, hv, hcv⟩ := hv hus
      obtain ⟨u, us, rfl, hk, hu, -⟩ := hus.uncons hts.head
      refine ⟨g', v, ?_, hcv⟩
      rw [Declaration.argument?, if_neg (by rw [isNumber_congr hk hu]; exact hn), hv]

theorem arguments? {m ts : List Token}
    (h : ∀ xs, xs.length ≤ ts.length → SteadyAt m Declaration.type? xs) :
    SteadyAt m Declaration.arguments? ts := by
  refine (SteadyAt.skipElse ">" (by decide) (fun r _ => SteadyAt.pure m [] r)
    fun _ => commaList ">" advances_types.2.2.2 (by decide)
      fun xs hxs => argument? (h xs hxs)).congr fun us => ?_
  cases hs : Declaration.skip? ">" us with
  | some r => simp only [Declaration.arguments?, hs]
  | none => simp only [Declaration.arguments?, argumentList?_eq, hs]

theorem markedType (m : List Token) (words : List String) : Steady m (markedType words) :=
  fun ts => (typeMarks m ts).map fun marks => TypeExpr.ofTokens (words ++ marks)

theorem type? (m : List Token) : Steady m type? := by
  intro ts
  induction hn : ts.length using Nat.strongRecOn generalizing ts with
  | ind n ih =>
    have hback : ∀ front behind, Declaration.typeFront? ts = some (front, behind) →
        SteadyAt m (afterFront front) behind := by
      rintro ⟨words, native⟩ behind hf
      cases native with
      | true => exact markedType m words behind
      | false =>
        refine SteadyAt.skipElse "<" (by decide) (fun inner hs => ?_)
          fun _ => markedType m words behind
        have h1 := advances_typeFront? hf
        have h2 := suffix_of_skip? hs
        have hargs : SteadyAt m Declaration.arguments? inner :=
          arguments? fun xs hxs => ih xs.length (by omega) xs rfl
        exact hargs.bind fun args closed _ => (typeMarks m closed).map fun marks =>
          ((TypeExpr.ofTokens (words ++ ["<"])).append (.ofGroups args)).append
            (.ofTokens (">" :: marks))
    exact ((typeFront? m ts).bind hback).congr type?_eq

end Steady

end HeaderOutline
