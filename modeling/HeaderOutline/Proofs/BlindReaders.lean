import HeaderOutline.Proofs.SteadyTypes
/-!
# Readers are blind to what they leave

A reader that leaves an end of its tokens takes the same value when another end stands there. It
looks at the end only to see that nothing goes on, so the other one has to begin with a mark at
which names and types stop. `Exchanged` relates tokens that differ in their ends, and `BlindAt` says
of a reader that it keeps them related. Of the first end only default values ask something, which
are not to stop there (`InValue`): whatever else would be read of it is not left.

The readers are taken apart as for `Steady`.

Results:
* `BlindAt.bind`, `BlindAt.skip`, `BlindAt.skipElse`, `Blind.commaList`: readers made of readers.
* `Blind.type?`, `Blind.qualifiedName?`, `Blind.front?`.
-/
namespace HeaderOutline
open Text Declaration Token

/-- The tokens of the second list are those of the first with `y` in place of the end `x`. -/
inductive Exchanged (x y : List Token) : List Token → List Token → Prop
  | here : Exchanged x y x y
  | cons (t : Token) {ts us : List Token} : Exchanged x y ts us → Exchanged x y (t :: ts) (t :: us)

/-- The reader takes the same value when the end `x`, which it leaves, is exchanged for `y`. -/
def BlindAt {α : Type} (x y : List Token) (p : Reader α) (ts : List Token) : Prop :=
  ∀ ⦃a : α⦄ ⦃r : List Token⦄, p ts = some (a, r) → x <:+ r → x <:+ ts ∧
    ∀ ⦃us : List Token⦄, Exchanged x y ts us → ∃ v, p us = some (a, v) ∧ Exchanged x y r v

/-- The reader is blind to the end wherever it begins. -/
def Blind {α : Type} (x y : List Token) (p : Reader α) : Prop :=
  ∀ ts, BlindAt x y p ts

def stopMarks : List String :=
  ["(", ")", ",", "=", ";"]

def Stops (ts : List Token) : Prop :=
  ∃ t r, ts = t :: r ∧ t.kind ≠ .word ∧ t.text ∈ stopMarks

/-- The tokens begin with a mark that a default value takes and that begins none. -/
def InValue (ts : List Token) : Prop :=
  ∃ t r, ts = t :: r ∧ t.text ∈ ["(", ";"]

section

variable {x y ts us r : List Token} {t : Token} {text : String}

theorem Exchanged.append (as : List Token) (h : Exchanged x y ts us) :
    Exchanged x y (as ++ ts) (as ++ us) := by
  induction as with
  | nil => exact h
  | cons a as ih => exact .cons a ih

theorem Exchanged.exists_append (h : Exchanged x y ts us) : ∃ as, ts = as ++ x ∧ us = as ++ y := by
  induction h with
  | here => exact ⟨[], rfl, rfl⟩
  | cons t _ ih =>
    obtain ⟨as, rfl, rfl⟩ := ih
    exact ⟨t :: as, rfl, rfl⟩

theorem Exchanged.uncons (h : Exchanged x y (t :: ts) us) (hx : x <:+ ts) :
    ∃ v, us = t :: v ∧ Exchanged x y ts v := by
  cases h with
  | here => exact absurd hx.length_le (by simp)
  | cons _ h => exact ⟨_, rfl, h⟩

theorem Stops.skip?_none (hy : Stops y) (ht : text ∉ stopMarks) : skip? text y = none := by
  obtain ⟨t, r, rfl, -, hm⟩ := hy
  rw [skip?, if_neg]
  rintro rfl
  exact ht hm

theorem Stops.name?_none (hy : Stops y) : Declaration.name? y = none := by
  obtain ⟨t, r, rfl, hk, -⟩ := hy
  rw [Declaration.name?, if_neg (by simp [isName, hk])]

/-- Where a mark that ends no name is not found, it is not found with another end either. -/
theorem Exchanged.skip?_none (h : Exchanged x y ts us) (hy : skip? text y = none)
    (hs : skip? text ts = none) : skip? text us = none := by
  cases h with
  | here => exact hy
  | cons t _ =>
    rw [skip?] at hs ⊢
    split at hs
    · cases hs
    · next hne => rw [if_neg hne]

end

/-! ## Readers made of readers -/

namespace BlindAt

variable {α β : Type} {x y ts : List Token} {p : Reader α} {text : String}

theorem congr {q : Reader α} (he : ∀ us, p us = q us) (h : BlindAt x y q ts) :
    BlindAt x y p ts := by
  intro a r hp hx
  rw [he] at hp
  obtain ⟨hts, hv⟩ := h hp hx
  refine ⟨hts, fun us hus => ?_⟩
  rw [he]
  exact hv hus

theorem pure (a : α) (ts : List Token) : BlindAt x y (fun ts => some (a, ts)) ts := by
  intro b r h hx
  cases h
  exact ⟨hx, fun us hus => ⟨us, rfl, hus⟩⟩

theorem bind {q : α → Reader β} (hp : BlindAt x y p ts)
    (hq : ∀ a r, p ts = some (a, r) → BlindAt x y (q a) r) :
    BlindAt x y (fun us => (p us).bind fun z => q z.1 z.2) ts := by
  intro b r h hx
  obtain ⟨⟨a, mid⟩, h1, h2⟩ := Option.bind_eq_some_iff.mp h
  obtain ⟨hmid, hq⟩ := hq a mid h1 h2 hx
  obtain ⟨hts, hp⟩ := hp h1 hmid
  refine ⟨hts, fun us hus => ?_⟩
  obtain ⟨v1, hv1, hm⟩ := hp hus
  obtain ⟨v2, hv2, hr⟩ := hq hm
  exact ⟨v2, Option.bind_eq_some_iff.mpr ⟨_, hv1, hv2⟩, hr⟩

theorem map (f : α → β) (hp : BlindAt x y p ts) :
    BlindAt x y (fun us => (p us).map fun z => (f z.1, z.2)) ts := by
  refine (hp.bind fun a r _ => pure (f a) r).congr fun us => ?_
  cases p us <;> rfl

theorem filter (f : α → Bool) (hp : BlindAt x y p ts) :
    BlindAt x y (fun us => (p us).filter fun z => f z.1) ts := by
  intro a r h hx
  obtain ⟨hp', hf⟩ := Option.filter_eq_some_iff.mp h
  obtain ⟨hts, hv⟩ := hp hp' hx
  refine ⟨hts, fun us hus => ?_⟩
  obtain ⟨v, hv, hr⟩ := hv hus
  exact ⟨v, Option.filter_eq_some_iff.mpr ⟨hv, hf⟩, hr⟩

theorem skip (text : String) {q : Reader β}
    (hq : ∀ r, skip? text ts = some r → BlindAt x y q r) :
    BlindAt x y (fun us => (skip? text us).bind q) ts := by
  intro b r h hx
  obtain ⟨mid, h1, h2⟩ := Option.bind_eq_some_iff.mp h
  obtain ⟨hmid, hmore⟩ := hq mid h1 h2 hx
  obtain ⟨t, rfl, ht⟩ := skip?_eq_some.mp h1
  refine ⟨hmid.trans (List.suffix_cons t mid), fun us hus => ?_⟩
  obtain ⟨v, rfl, hv⟩ := hus.uncons hmid
  obtain ⟨w, hw, hr⟩ := hmore hv
  exact ⟨w, Option.bind_eq_some_iff.mpr ⟨v, skip?_eq_some.mpr ⟨t, rfl, ht⟩, hw⟩, hr⟩

/-- One way on behind a token with a given text, and another without it. The other end may begin
with such a token only where the second way takes something. -/
theorem skipElse (text : String) {q : Reader α}
    (hne : skip? text y = none ∨ ∀ a r, p ts = some (a, r) → r.length < ts.length)
    (hq : ∀ r, skip? text ts = some r → BlindAt x y q r)
    (hp : skip? text ts = none → BlindAt x y p ts) :
    BlindAt x y (fun us => match skip? text us with
      | some r => q r
      | none => p us) ts := by
  intro a r h hx
  cases hs : skip? text ts with
  | some mid =>
    simp only [hs] at h
    obtain ⟨hmid, hmore⟩ := hq mid hs h hx
    obtain ⟨t, rfl, ht⟩ := skip?_eq_some.mp hs
    refine ⟨hmid.trans (List.suffix_cons t mid), fun us hus => ?_⟩
    obtain ⟨v, rfl, hv⟩ := hus.uncons hmid
    simp only [skip?_eq_some.mpr ⟨t, rfl, ht⟩]
    exact hmore hv
  | none =>
    simp only [hs] at h
    obtain ⟨hts, hp⟩ := hp hs h hx
    refine ⟨hts, fun us hus => ?_⟩
    have hus' : skip? text us = none := by
      rcases hne with hne | hlt
      · exact hus.skip?_none hne hs
      · cases hus with
        | here => exact absurd (hlt a r h) (by have := hx.length_le; omega)
        | cons t _ =>
          rw [skip?] at hs ⊢
          split at hs
          · cases hs
          · next hne => rw [if_neg hne]
    simp only [hus']
    exact hp hus

end BlindAt

namespace Blind

variable {x y : List Token} {text : String}

theorem name? (x y : List Token) : Blind x y name? := by
  intro ts a r h hx
  obtain ⟨t, rfl, hn, rfl⟩ := exists_of_name? h
  refine ⟨hx.trans (List.suffix_cons t r), fun us hus => ?_⟩
  obtain ⟨v, rfl, hv⟩ := hus.uncons hx
  exact ⟨v, by rw [Declaration.name?, if_pos hn], hv⟩

theorem freeName? (x y : List Token) : Blind x y freeName? :=
  fun ts => (name? x y ts).filter fun name => !isReserved name

theorem skipOptional (text : String) (hy : Declaration.skip? text y = none) :
    Blind x y fun ts => some (startsWith text ts, Declaration.skipOptional text ts) := by
  intro ts
  refine (BlindAt.skipElse text (.inl hy) (fun r _ => BlindAt.pure true r)
    (fun _ => BlindAt.pure false ts)).congr fun us => ?_
  unfold startsWith Declaration.skipOptional
  cases skip? text us <;> rfl

/-! ## Runs and lists -/

theorem run {p : String → Bool} (hy : ∀ t ∈ y.head?, p t.text = false) :
    Blind x y fun ts => some ((ts.takeWhile fun t => p t.text).map (·.text),
      ts.dropWhile fun t => p t.text) := by
  intro ts a r h hx
  obtain ⟨rfl, rfl⟩ := Prod.mk.inj (Option.some.inj h)
  clear h
  have hstop : y.takeWhile (fun t => p t.text) = [] ∧ y.dropWhile (fun t => p t.text) = y := by
    cases y with
    | nil => exact ⟨rfl, rfl⟩
    | cons t y => simp [hy t rfl]
  refine ⟨hx.trans (List.dropWhile_suffix _), fun us hus => ?_⟩
  induction hus with
  | here =>
    -- Nothing is taken from an end that is left.
    have hx' : x.dropWhile (fun t => p t.text) = x :=
      ((List.dropWhile_suffix _).eq_of_length_le hx.length_le)
    have hnone : x.takeWhile (fun t => p t.text) = [] := by
      have := List.takeWhile_append_dropWhile (p := fun t : Token => p t.text) (l := x)
      rw [hx'] at this
      simpa using this
    refine ⟨y, ?_, ?_⟩
    · simp only [hstop.1, hstop.2, hnone]
    · rw [hx']
      exact .here
  | @cons t ts us hus ih =>
    cases ht : p t.text with
    | true =>
      rw [List.dropWhile_cons, if_pos ht] at hx
      obtain ⟨v, hv, hr⟩ := ih hx
      obtain ⟨h1, h2⟩ := Prod.mk.inj (Option.some.inj hv)
      refine ⟨v, ?_, ?_⟩
      · simp only [List.takeWhile_cons, List.dropWhile_cons, ht, if_true, List.map_cons, h1, h2]
      · rw [List.dropWhile_cons, if_pos ht]
        exact hr
    | false =>
      refine ⟨t :: us, ?_, ?_⟩
      · simp [ht]
      · simpa [List.dropWhile_cons, ht] using hus.cons t

theorem commaList {α : Type} {item : Reader α} (close : String) (hi : Advances item)
    {ts : List Token} (h : ∀ xs, xs.length ≤ ts.length → BlindAt x y item xs) :
    BlindAt x y (Declaration.commaList item close) ts := by
  induction hn : ts.length using Nat.strongRecOn generalizing ts with
  | ind n ih =>
    refine ((h ts (Nat.le_refl _)).bind fun a r hitem =>
      BlindAt.skipElse "," (.inr fun as r' hclose => ?_)
        (fun rest hs => (ih rest.length ?_ (fun xs hxs => h xs ?_) rfl).map fun as => a :: as)
        fun _ => BlindAt.skip close fun v _ => BlindAt.pure [a] v).congr (commaList_eq hi close)
    · obtain ⟨v, hv, heq⟩ := Option.bind_eq_some_iff.mp hclose
      cases heq
      exact (suffix_of_skip? hv).2
    · have h1 := hi hitem
      have h2 := suffix_of_skip? hs
      omega
    · have h1 := hi hitem
      have h2 := suffix_of_skip? hs
      omega

/-! ## Names -/

/-- Where `::` and a name are taken, both stand in front of what is left. -/
theorem laterParts (hy : Stops y) : Blind x y fun ts => some (Declaration.laterParts ts) := by
  intro ts a r h hx
  obtain ⟨rfl, rfl⟩ := Prod.mk.inj (Option.some.inj h)
  clear h
  refine ⟨hx.trans (suffix_laterParts ts), fun us hus => ?_⟩
  have hstop : Declaration.laterParts y = ("", y) := by
    obtain ⟨t, v, rfl, -, hm⟩ := hy
    have ht : t.text ≠ "::" := fun he => absurd (he ▸ hm) (by decide)
    cases v with
    | nil => rfl
    | cons n v => rw [Declaration.laterParts, if_neg fun hc => ht hc.1]
  have hafter : ∀ c : Token, Declaration.laterParts (c :: y) = ("", c :: y) := fun c => by
    obtain ⟨t, v, rfl, hk, -⟩ := hy
    rw [Declaration.laterParts, if_neg fun hc => by simp [isName, hk] at hc]
  fun_induction Declaration.laterParts ts generalizing us with
  | case1 c n ts hcn parts rest heq ih =>
    rw [heq] at ih
    have hts : x <:+ ts := by
      have := suffix_laterParts ts
      rw [heq] at this
      exact hx.trans this
    obtain ⟨v, rfl, hv⟩ := hus.uncons (hts.trans (List.suffix_cons n ts))
    obtain ⟨w, rfl, hw⟩ := hv.uncons hts
    obtain ⟨z, hz, hr⟩ := ih hx w hw
    have hz : Declaration.laterParts w = (parts, z) := Option.some.inj hz
    exact ⟨z, by simp only [Declaration.laterParts, if_pos hcn, hz], hr⟩
  | case2 c n ts hcn =>
    refine ⟨us, congrArg some ?_, hus⟩
    cases hus with
    | here => exact hstop
    | cons _ hv =>
      cases hv with
      | cons => simp only [Declaration.laterParts, if_neg hcn]
      | here => exact hafter c
  | case3 ts hts =>
    refine ⟨us, congrArg some ?_, hus⟩
    cases hus with
    | here => exact hstop
    | cons t hv =>
      cases hv with
      | cons n => exact absurd rfl (hts t n _)
      | here => exact hafter t

theorem qualifiedName? (hy : Stops y) : Blind x y qualifiedName? := by
  intro ts
  refine ((skipOptional "::" (hy.skip?_none (by decide)) ts).bind fun root r _ =>
    (freeName? x y r).bind fun first v _ => (laterParts hy v).map fun parts =>
      (if root then "::" else "") ++ first ++ parts).congr fun us => ?_
  unfold Declaration.qualifiedName?
  simp only [Option.bind_some]
  cases Declaration.freeName? (Declaration.skipOptional "::" us) <;> rfl

/-! ## Types -/

theorem bareType? (hy : Stops y) : Blind x y bareType? := by
  intro ts
  have hnative : ∀ t ∈ y.head?, isNative t.text = false := by
    obtain ⟨t, v, rfl, -, hm⟩ := hy
    have hall : ∀ mark ∈ stopMarks, isNative mark = false := by decide
    rintro u ⟨⟩
    exact hall t.text hm
  refine ((run hnative ts).bind fun texts r _ =>
    (?_ : BlindAt x y (fun us => if texts = [] then
      (Declaration.qualifiedName? us).map fun z => (([z.1], false), z.2)
      else some ((texts, true), us)) r)).congr fun us => ?_
  · split
    · exact (qualifiedName? hy r).map fun name => ([name], false)
    · exact BlindAt.pure (texts, true) r
  · unfold Declaration.bareType?
    simp only [Option.bind_some, List.map_eq_nil_iff]
    split
    · next h =>
      have hd : us.dropWhile (fun t => isNative t.text) = us := by
        have := List.takeWhile_append_dropWhile (p := fun t : Token => isNative t.text) (l := us)
        rwa [h] at this
      rw [if_pos h, hd]
    · next t natives h =>
      rw [if_neg (by simp [h]), h]

theorem typeFront? (hy : Stops y) : Blind x y typeFront? := by
  intro ts
  refine ((skipOptional "const" (hy.skip?_none (by decide)) ts).bind fun c r _ =>
    (bareType? hy r).map fun front =>
      (if c then "const" :: front.1 else front.1, front.2)).congr fun us => ?_
  unfold Declaration.typeFront?
  simp only [Option.bind_some]

theorem stars (hy : Stops y) : Blind x y fun ts => some (Declaration.stars ts) := by
  intro ts
  induction hn : ts.length using Nat.strongRecOn generalizing ts with
  | ind n ih =>
    refine (BlindAt.skipElse "*" (.inl (hy.skip?_none (by decide)))
      (fun r h => (ih _ (hn ▸ (suffix_of_skip? h).2) r rfl).map fun marks => "*" :: marks)
      fun _ => BlindAt.pure [] ts).congr fun us => ?_
    cases us with
    | nil => rfl
    | cons t us => by_cases ht : t.text = "*" <;> simp [Declaration.stars, Declaration.skip?, ht]

theorem ampersands (hy : Stops y) (n : Nat) :
    Blind x y fun ts => some (Declaration.ampersands n ts) := by
  induction n with
  | zero => exact fun ts => (BlindAt.pure [] ts).congr fun us => rfl
  | succ n ih =>
    intro ts
    refine (BlindAt.skipElse "&" (.inl (hy.skip?_none (by decide)))
      (fun r _ => (ih r).map fun marks => "&" :: marks)
      fun _ => BlindAt.pure [] ts).congr fun us => ?_
    cases us with
    | nil => rfl
    | cons t us =>
      by_cases ht : t.text = "&" <;> simp [Declaration.ampersands, Declaration.skip?, ht]

theorem typeMarks (hy : Stops y) : Blind x y fun ts => some (Declaration.typeMarks ts) := by
  intro ts
  exact ((stars hy ts).bind fun pointers r _ => (ampersands hy 2 r).map fun references =>
    pointers ++ references).congr fun us => rfl

/-- An argument is read as blindly as the type that begins there. -/
theorem argument? {ts : List Token} (h : BlindAt x y Declaration.type? ts) :
    BlindAt x y Declaration.argument? ts := by
  intro a r ha hx
  cases ts with
  | nil => rw [Declaration.argument?] at ha; cases ha
  | cons t ts =>
    rw [Declaration.argument?] at ha
    split at ha
    · next hn =>
      cases ha
      refine ⟨hx.trans (List.suffix_cons t _), fun us hus => ?_⟩
      obtain ⟨v, rfl, hv⟩ := hus.uncons hx
      exact ⟨v, by rw [Declaration.argument?, if_pos hn], hv⟩
    · next hn =>
      have hadv := advances_type? ha
      have hts : x <:+ ts := by
        have hle := hx.length_le
        have hlt := hadv.2
        exact List.suffix_of_suffix_length_le (hx.trans hadv.1) (List.suffix_cons t ts)
          (by rw [List.length_cons] at hlt; omega)
      obtain ⟨hts', hv⟩ := h ha hx
      refine ⟨hts', fun us hus => ?_⟩
      obtain ⟨v, hv, hr⟩ := hv hus
      obtain ⟨w, rfl, -⟩ := hus.uncons hts
      exact ⟨v, by rw [Declaration.argument?, if_neg hn, hv], hr⟩

theorem arguments? (hy : Stops y) {ts : List Token}
    (h : ∀ xs, xs.length ≤ ts.length → BlindAt x y Declaration.type? xs) :
    BlindAt x y Declaration.arguments? ts := by
  refine (BlindAt.skipElse ">" (.inl (hy.skip?_none (by decide)))
    (fun r _ => BlindAt.pure [] r)
    fun _ => commaList ">" advances_types.2.2.2
      fun xs hxs => argument? (h xs hxs)).congr fun us => ?_
  cases hs : Declaration.skip? ">" us with
  | some r => simp only [Declaration.arguments?, hs]
  | none => simp only [Declaration.arguments?, argumentList?_eq, hs]

theorem markedType (hy : Stops y) (words : List String) : Blind x y (markedType words) :=
  fun ts => (typeMarks hy ts).map fun marks => TypeExpr.ofTokens (words ++ marks)

theorem type? (hy : Stops y) : Blind x y type? := by
  intro ts
  induction hn : ts.length using Nat.strongRecOn generalizing ts with
  | ind n ih =>
    have hback : ∀ front behind, Declaration.typeFront? ts = some (front, behind) →
        BlindAt x y (afterFront front) behind := by
      rintro ⟨words, native⟩ behind hf
      cases native with
      | true => exact markedType hy words behind
      | false =>
        refine BlindAt.skipElse "<" (.inl (hy.skip?_none (by decide))) (fun inner hs => ?_)
          fun _ => markedType hy words behind
        have h1 := advances_typeFront? hf
        have h2 := suffix_of_skip? hs
        have hargs : BlindAt x y Declaration.arguments? inner :=
          arguments? hy fun xs hxs => ih xs.length (by omega) xs rfl
        exact hargs.bind fun args closed _ => (typeMarks hy closed).map fun marks =>
          ((TypeExpr.ofTokens (words ++ ["<"])).append (.ofGroups args)).append
            (.ofTokens (">" :: marks))
    exact ((typeFront? hy ts).bind hback).congr type?_eq

/-! ## Template heads and specifiers -/

/-- A default value does not end before an opening parenthesis or a semicolon. -/
theorem skipDefault (hx : InValue x) {close : String} (hclose : close ≠ ";")
    (nesting angles : Nat) :
    Blind x y fun ts => some ((), Declaration.skipDefault close nesting angles ts) := by
  intro ts a r h hr
  obtain rfl : Declaration.skipDefault close nesting angles ts = r :=
    (Prod.mk.inj (Option.some.inj h)).2
  clear h
  refine ⟨hr.trans (suffix_skipDefault ..), fun us hus => ?_⟩
  induction hus generalizing nesting angles with
  | here =>
    obtain ⟨t, v, rfl, ht⟩ := hx
    obtain ⟨n, htaken⟩ : ∃ n, Declaration.skipDefault close nesting angles (t :: v) =
        Declaration.skipDefault close n angles v := by
      simp only [List.mem_cons, List.not_mem_nil, or_false] at ht
      rcases ht with ht | ht
      · exact ⟨nesting + 1, by rw [Declaration.skipDefault, ht, if_pos (by decide)]⟩
      · exact ⟨nesting, by simp [Declaration.skipDefault, ht, isOpening, isClosing, hclose.symm]⟩
    rw [htaken] at hr
    exact absurd (hr.trans (suffix_skipDefault ..)).length_le (by simp)
  | @cons t ts us hus ih =>
    rcases Steady.skipDefault_cons close nesting angles t.text with ⟨n, b, h⟩ | h
    · rw [h t ts rfl] at hr
      simp only [h t ts rfl, h t us rfl]
      exact ih n b hr
    · refine ⟨t :: us, by simp only [h t us rfl], ?_⟩
      rw [h t ts rfl]
      exact hus.cons t

theorem skipAssigned (hx : InValue x) (hy : InValue y) {close : String} (hclose : close ≠ ";") :
    Blind x y fun ts => some ((), Declaration.skipAssigned close ts) := by
  intro ts
  have hequals : Declaration.skip? "=" y = none := by
    obtain ⟨t, v, rfl, ht⟩ := hy
    rw [Declaration.skip?, if_neg]
    rintro he
    rw [he] at ht
    revert ht
    decide
  refine (BlindAt.skipElse "=" (.inl hequals) (fun r _ => skipDefault hx hclose 0 0 r)
    fun _ => BlindAt.pure () ts).congr fun us => ?_
  unfold Declaration.skipAssigned
  cases Declaration.skip? "=" us <;> rfl

section

variable (hx : InValue x) (hy : Stops y) (hy' : InValue y)
include hx hy hy'

theorem templateItem? : Blind x y templateItem? := by
  intro ts
  have hname : ∀ r, BlindAt x y (fun us => (Declaration.name? us).bind fun z =>
      (some ((), Declaration.skipAssigned ">" z.2)).map fun w => (z.1, w.2)) r := fun r =>
    (name? x y r).bind fun a v _ => (skipAssigned hx hy' (by decide) v).map fun _ => a
  refine (BlindAt.skipElse "typename" (.inl (hy.skip?_none (by decide))) (fun r _ => hname r)
    fun _ => BlindAt.skip "class" fun r _ => hname r).congr fun us => ?_
  unfold Declaration.templateItem?
  cases skip? "typename" us with
  | some r => cases hn : Declaration.name? r <;> simp [hn]
  | none =>
    cases skip? "class" us with
    | some r => cases hn : Declaration.name? r <;> simp [hn]
    | none => rfl

theorem templateHead? : Blind x y templateHead? := by
  intro ts
  refine (BlindAt.skipElse "template" (.inl (hy.skip?_none (by decide)))
    (fun r _ => BlindAt.skip "<" fun inner _ =>
      BlindAt.skipElse ">" (.inl (hy.skip?_none (by decide)))
        (fun v _ => BlindAt.pure (some (TemplateParams.mk [])) v)
        fun _ => (commaList ">" advances_templateItem?
          fun xs _ => templateItem? hx hy hy' xs).map fun names => some (TemplateParams.mk names))
    fun _ => BlindAt.pure none ts).congr fun us => ?_
  unfold Declaration.templateHead?
  cases skip? "template" us with
  | none => rfl
  | some r =>
    simp only
    cases skip? "<" r <;> rfl

omit hx hy' in
theorem specifiers (isStatic isVirtual : Bool) :
    Blind x y fun ts => some (Declaration.specifiers isStatic isVirtual ts) := by
  intro ts
  induction hn : ts.length using Nat.strongRecOn generalizing ts isStatic isVirtual with
  | ind n ih =>
    have hlt : ∀ {text r}, skip? text ts = some r → r.length < n := fun h =>
      hn ▸ (suffix_of_skip? h).2
    have hne : ∀ {text}, text ∉ stopMarks → Declaration.skip? text y = none := hy.skip?_none
    refine (BlindAt.skipElse "static" (.inl (hne (by decide)))
      (fun r h => ih _ (hlt h) true isVirtual r rfl) fun _ =>
      BlindAt.skipElse "virtual" (.inl (hne (by decide)))
        (fun r h => ih _ (hlt h) isStatic true r rfl) fun _ =>
        BlindAt.skipElse "inline" (.inl (hne (by decide)))
          (fun r h => ih _ (hlt h) isStatic isVirtual r rfl) fun _ =>
          BlindAt.skipElse "constexpr" (.inl (hne (by decide)))
            (fun r h => ih _ (hlt h) isStatic isVirtual r rfl) fun _ =>
            BlindAt.skipElse "explicit" (.inl (hne (by decide)))
              (fun r h => ih _ (hlt h) isStatic isVirtual r rfl) fun _ =>
              BlindAt.pure (isStatic, isVirtual) ts).congr fun us => ?_
    cases us with
    | nil => rfl
    | cons t us => grind [Declaration.specifiers, Declaration.skip?]

theorem front? : Blind x y front? := by
  intro ts
  refine ((templateHead? hx hy hy' ts).bind fun template r _ =>
    (specifiers hy false false r).map fun words => (⟨template, words.1, words.2⟩ : Front)).congr
      fun us => ?_
  unfold Declaration.front?
  cases Declaration.templateHead? us <;> rfl

end

end Blind

end HeaderOutline
