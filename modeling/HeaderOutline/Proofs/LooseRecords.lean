import HeaderOutline.Json
/-!
# Records with other keys

Data that was written may come back with more in it, or with less: somebody has put keys into its
records that their readers do not know, or has left out keys whose value was null. `Loosens` says
what a value can have become in this way, at any depth. The objects with a single key that tell the
fragments of a type apart are no records and stay as they are.

A value is told by all that it loosens to: `Recovers` says that a reader gets the same from each.

Results:
* `Loosens.refl`: a value may also stay as it was.
* `LoosensFields.lookup_cases`: the field of a key, in a record that has loosened.
* `Recovers.list`, `LooseRecord.required`, `LooseRecord.optionalField`: what readers of lists and
  of records get, from what the readers of their parts get.
-/
namespace HeaderOutline.Json

/-- The object is a fragment of a type: its only key tells of which sort. -/
def isFragment : List (String × Json) → Bool
  | [(key, _)] => key == "Token" || key == "Group"
  | _ => false

mutual

/-- A value becomes another one: unknown keys are added to its records, and fields with null are
removed from them. A record knows the keys that it is written with. -/
inductive Loosens : Json → Json → Prop
  | null : Loosens null null
  | bool (b : Bool) : Loosens (bool b) (bool b)
  | number (mantissa : Int) (places : Nat) :
    Loosens (number mantissa places) (number mantissa places)
  | text (t : String) : Loosens (text t) (text t)
  | list {js ks : List Json} : LoosensAll js ks → Loosens (list js) (list ks)
  | fragment {key : String} {j k : Json} : isFragment [(key, j)] = true → Loosens j k →
    Loosens (object [(key, j)]) (object [(key, k)])
  | record {fields others : List (String × Json)} : isFragment fields = false →
    LoosensFields (fields.map (·.1)) fields others → Loosens (object fields) (object others)

inductive LoosensAll : List Json → List Json → Prop
  | nil : LoosensAll [] []
  | cons {j k : Json} {js ks : List Json} : Loosens j k → LoosensAll js ks →
    LoosensAll (j :: js) (k :: ks)

/-- The fields of a record become others: those with null may go, and keys that are not known may
come. -/
inductive LoosensFields :
    (known : List String) → (fields others : List (String × Json)) → Prop
  | nil {known : List String} : LoosensFields known [] []
  | keep {known : List String} {key : String} {j k : Json} {fields others : List (String × Json)} :
    Loosens j k → LoosensFields known fields others →
      LoosensFields known ((key, j) :: fields) ((key, k) :: others)
  | drop {known : List String} {key : String} {fields others : List (String × Json)} :
    LoosensFields known fields others → LoosensFields known ((key, null) :: fields) others
  | add {known : List String} (key : String) (k : Json) {fields others : List (String × Json)} :
    key ∉ known → LoosensFields known fields others →
      LoosensFields known fields ((key, k) :: others)

end

mutual

/-- A value may stay as it was. -/
theorem Loosens.refl : (j : Json) → Loosens j j
  | .null => .null
  | .bool b => .bool b
  | .number mantissa places => .number mantissa places
  | .text t => .text t
  | .list js => .list (LoosensAll.refl js)
  | .object [] => .record rfl .nil
  | .object [(key, j)] => by
    cases h : isFragment [(key, j)] with
    | false => exact .record h (.keep (Loosens.refl j) .nil)
    | true => exact .fragment h (Loosens.refl j)
  | .object ((key, j) :: (key', j') :: fields) =>
    .record rfl (.keep (Loosens.refl j) (.keep (Loosens.refl j') (LoosensFields.refl _ fields)))

theorem LoosensAll.refl : (js : List Json) → LoosensAll js js
  | [] => .nil
  | j :: js => .cons (Loosens.refl j) (LoosensAll.refl js)

theorem LoosensFields.refl (known : List String) :
    (fields : List (String × Json)) → LoosensFields known fields fields
  | [] => .nil
  | (_, j) :: fields => .keep (Loosens.refl j) (LoosensFields.refl known fields)

end

/-! ## Fields -/

namespace LoosensFields

variable {known : List String} {key : String} {fields others : List (String × Json)}

theorem lookup_eq_none : {fields others : List (String × Json)} →
    LoosensFields known fields others → key ∈ known → key ∉ fields.map (·.1) →
      others.lookup key = none
  | _, _, .nil, _, _ => rfl
  | _, _, @keep _ key' _ _ _ _ _ h, hk, hn => by
    rw [List.map_cons, List.mem_cons, not_or] at hn
    have hne : (key == key') = false := beq_eq_false_iff_ne.mpr hn.1
    rw [List.lookup_cons, hne]
    exact lookup_eq_none h hk hn.2
  | _, _, .drop h, hk, hn => by
    rw [List.map_cons, List.mem_cons, not_or] at hn
    exact lookup_eq_none h hk hn.2
  | _, _, .add key' _ hno h, hk, hn => by
    have hne : (key == key') = false := beq_eq_false_iff_ne.mpr fun he => hno (he ▸ hk)
    rw [List.lookup_cons, hne]
    exact lookup_eq_none h hk hn

/-- The field of a known key has loosened, or it was null and is gone. -/
theorem lookup_cases {j : Json} : {fields others : List (String × Json)} →
    LoosensFields known fields others → key ∈ known → (fields.map (·.1)).Nodup →
      fields.lookup key = some j →
      (∃ k, others.lookup key = some k ∧ Loosens j k) ∨ j = null ∧ others.lookup key = none
  | _, _, @keep _ key' _ k _ _ hj h, hk, hd, hl => by
    rw [List.lookup_cons] at hl ⊢
    cases he : key == key' with
    | true =>
      rw [he] at hl
      cases hl
      exact .inl ⟨k, rfl, hj⟩
    | false =>
      rw [he] at hl
      exact lookup_cases h hk (List.nodup_cons.mp hd).2 hl
  | _, _, @drop _ key' _ _ h, hk, hd, hl => by
    obtain ⟨hn, hd⟩ := List.nodup_cons.mp hd
    rw [List.lookup_cons] at hl
    cases he : key == key' with
    | true =>
      rw [he] at hl
      cases hl
      -- The other fields have other keys, so nothing takes its place.
      exact .inr ⟨rfl, lookup_eq_none h hk (beq_iff_eq.mp he ▸ hn)⟩
    | false =>
      rw [he] at hl
      exact lookup_cases h hk hd hl
  | _, _, .add key' _ hno h, hk, hd, hl => by
    have hne : (key == key') = false := beq_eq_false_iff_ne.mpr fun he => hno (he ▸ hk)
    rw [List.lookup_cons, hne]
    exact lookup_cases h hk hd hl

end LoosensFields

theorem mem_of_lookup {key : String} {j : Json} {fields : List (String × Json)}
    (h : fields.lookup key = some j) : key ∈ fields.map (·.1) := by
  induction fields with
  | nil => cases h
  | cons f fields ih =>
    rw [List.lookup_cons] at h
    cases he : key == f.1 with
    | true => exact List.mem_map.mpr ⟨f, List.mem_cons_self, (beq_iff_eq.mp he).symm⟩
    | false =>
      rw [he] at h
      exact List.mem_cons_of_mem _ (ih h)

/-! ## Readers -/

variable {α : Type} {read : Json → Option α} {write : α → Json} {a : α} {j k : Json}

/-- The reader gets the value from all that `j` loosens to. -/
def Recovers (read : Json → Option α) (j : Json) (a : α) : Prop :=
  ∀ k, Loosens j k → read k = some a

namespace Recovers

theorem self (h : Recovers read j a) : read j = some a :=
  h j (Loosens.refl j)

theorem ofText {t : String} (h : read (.text t) = some a) : Recovers read (.text t) a := by
  intro k hk
  cases hk
  exact h

theorem text (t : String) : Recovers text? (.text t) t :=
  ofText rfl

theorem bool (b : Bool) : Recovers bool? (.bool b) b := by
  intro k hk
  cases hk
  rfl

theorem natural {n : Nat} (h : n < UInt64.size) : Recovers natural? (.natural n) n := by
  intro k hk
  cases hk
  exact natural?_natural h

theorem all {as : List α} {ks : List Json} (h : ∀ a ∈ as, Recovers read (write a) a)
    (hs : LoosensAll (as.map write) ks) : all? read ks = some as := by
  induction as generalizing ks with
  | nil => cases hs; rfl
  | cons a as ih =>
    obtain _ | ⟨ha, hs⟩ := hs
    rw [all?, h a List.mem_cons_self _ ha, ih (fun b hb => h b (List.mem_cons_of_mem _ hb)) hs]
    rfl

theorem list {as : List α} (h : ∀ a ∈ as, Recovers read (write a) a) :
    Recovers (list? read) (.list (as.map write)) as := by
  intro k hk
  cases hk with
  | list hs => exact all h hs

theorem texts (ts : List String) : Recovers texts? (.texts ts) ts :=
  list fun t _ => text t

end Recovers

/-- The fields `others` are those of a record that has loosened. Its keys were distinct. -/
structure LooseRecord (fields others : List (String × Json)) : Prop where
  distinct : (fields.map (·.1)).Nodup
  loosens : LoosensFields (fields.map (·.1)) fields others

theorem Loosens.exists_record {fields : List (String × Json)} (h : Loosens (object fields) k)
    (hf : isFragment fields = false) (hd : (fields.map (·.1)).Nodup) :
    ∃ others, k = object others ∧ LooseRecord fields others := by
  cases h with
  | fragment hf' => rw [hf] at hf'; cases hf'
  | record _ h => exact ⟨_, rfl, hd, h⟩

theorem Loosens.eq_null (h : Loosens j .null) : j = .null := by
  cases h
  rfl

namespace LooseRecord

variable {fields others : List (String × Json)}

theorem required (key : String) (h : LooseRecord fields others)
    (hl : fields.lookup key = some j) (hj : j ≠ null) (hr : Recovers read j a) :
    required read key others = some a := by
  rcases h.loosens.lookup_cases (mem_of_lookup hl) h.distinct hl with ⟨k, hk, hjk⟩ | ⟨hnull, -⟩
  · rw [Json.required, hk, Option.bind_some, hr k hjk]
  · exact absurd hnull hj

/-- A field that may be missing is read if its value is, when there is one. -/
theorem optionalField {a : Option α} (key : String) (h : LooseRecord fields others)
    (hl : fields.lookup key = some (optional write a)) (hw : ∀ b, write b ≠ null)
    (hr : ∀ b, Recovers read (write b) b) : optionalField read key others = some a := by
  unfold Json.optionalField
  rcases h.loosens.lookup_cases (mem_of_lookup hl) h.distinct hl with ⟨k, hk, hjk⟩ | ⟨hnull, hk⟩
  · rw [hk]
    cases a with
    | none => cases hjk; rfl
    | some b =>
      show optional? read k = some (some b)
      unfold optional?
      split
      · exact absurd hjk.eq_null (hw b)
      · rw [hr b k hjk, Option.map_some]
  · rw [hk]
    cases a with
    | none => rfl
    | some b => exact absurd hnull (hw b)

end LooseRecord

end HeaderOutline.Json
