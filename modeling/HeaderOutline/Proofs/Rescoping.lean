import HeaderOutline.Proofs.CleanPrefix
/-!
# Readings in other scopes

A step asks its scopes little: which rule matches, and what the match does to them. Where a map of
the scopes changes neither, it takes a step to the step that is made in the scopes that it gives,
with the same lines, notes and counts.

Results:
* `act_rescope`: one match.
* `step_rescope`: one step.
-/
namespace HeaderOutline

def Callback.rescope (φ : ScopeStack → ScopeStack) (c : Callback) : Callback :=
  { c with scopes := φ c.scopes }

def Entry.rescope (φ : ScopeStack → ScopeStack) : Entry → Entry
  | callback c => callback (c.rescope φ)
  | note n => note n

variable {φ : ScopeStack → ScopeStack}

theorem callbacksOf_rescope (es : List Entry) :
    callbacksOf (es.map (.rescope φ)) = (callbacksOf es).map (.rescope φ) := by
  induction es with
  | nil => rfl
  | cons e es ih =>
    cases e with
    | note n => exact ih
    | callback c => exact congrArg (_ :: ·) ih

theorem structural_rescope (cs : List Callback) :
    structural (cs.map (.rescope φ)) = (structural cs).map (.rescope φ) :=
  List.filter_map

theorem calls_rescope (es : List Entry) :
    calls (es.map (.rescope φ)) = (calls es).map fun c => (c.1, φ c.2) := by
  rw [calls_eq_structural, callbacksOf_rescope, structural_rescope, calls_eq_structural,
    List.map_map, List.map_map]
  rfl

namespace State

def rescope (φ : ScopeStack → ScopeStack) (s : State) : State :=
  { s with scopes := φ s.scopes }

variable {s t : State} {line : SourceLine} {es : List Entry}

/-! ## Parts of a step -/

theorem enter_rescope (line : SourceLine) (s : State) :
    (s.rescope φ).enter line =
      ((s.enter line).1.map (.rescope φ), (s.enter line).2.rescope φ) := by
  have hg : (s.rescope φ).group = s.group := rfl
  unfold enter
  rw [hg]
  split
  · rfl
  · cases s.group <;> rfl

/-- A construct is reported alike when its body is pushed alike. -/
theorem report_rescope {body : Option Frame}
    (h : φ (body.toList ++ s.scopes) = body.toList ++ φ s.scopes) (e : Event) :
    (s.rescope φ).report e body =
      ((s.report e body).1.map (.rescope φ), (s.report e body).2.rescope φ) := by
  simp only [report, countConstruct, rescope, h]
  rfl

theorem define_rescope (name : String) (value : List Char) (s : State) :
    (s.rescope φ).perform (.define name value) =
      ((s.perform (.define name value)).1.map (.rescope φ),
        (s.perform (.define name value)).2.rescope φ) :=
  rfl

theorem readEnum_rescope (line : SourceLine) (s : State) :
    (s.rescope φ).readEnum line =
      ((s.readEnum line).1.map (.rescope φ), (s.readEnum line).2.rescope φ) := by
  have hp : (s.rescope φ).pending = s.pending := rfl
  unfold readEnum
  simp only [hp]
  split <;> rfl

theorem unmatched_rescope (line : SourceLine) (s : State) :
    (s.rescope φ).unmatched line =
      ((s.unmatched line).1.map (.rescope φ), (s.unmatched line).2.rescope φ) := by
  have hp : (s.rescope φ).pending = s.pending := rfl
  unfold unmatched
  rw [hp]
  cases s.pending <;> rfl

theorem putBack_rescope (number : Nat) (rest : List Char) (s : State) :
    (s.rescope φ).putBack number rest =
      ((s.putBack number rest).1.map (.rescope φ), (s.putBack number rest).2.rescope φ) := by
  unfold putBack
  simp only
  split <;> rfl

/-! ## Steps -/

/-- What is done upon a match is done alike when the construct is performed alike, and braces are
closed alike. -/
theorem act_rescope {rest : List Char} {k : Construct}
    (hp : (s.rescope φ).perform k = ((s.perform k).1.map (.rescope φ), (s.perform k).2.rescope φ))
    (hc : ∀ fs u, k = .closeBrace → s.closeBrace line.number = (fs, .ok u) →
      (s.rescope φ).closeBrace line.number = (fs.map (.rescope φ), .ok (u.rescope φ)))
    (h : s.act line rest k = (es, .ok t)) :
    (s.rescope φ).act line rest k = (es.map (.rescope φ), .ok (t.rescope φ)) := by
  unfold act at h ⊢
  split at h
  · simp only [Prod.mk.injEq, Except.ok.injEq] at h
    obtain ⟨rfl, rfl⟩ := h
    simp only [readEnum_rescope]
  · split at h
    · cases h
    · next u hcb =>
      simp only [Prod.mk.injEq, Except.ok.injEq] at h
      obtain ⟨rfl, rfl⟩ := h
      simp only [hc _ _ rfl hcb, putBack_rescope, List.map_append]
  · simp only [Prod.mk.injEq, Except.ok.injEq] at h
    obtain ⟨rfl, rfl⟩ := h
    simp only [hp, putBack_rescope, List.map_append]

/-- A step that succeeds is made alike when the same is matched, and the match does the same. -/
theorem step_rescope {later : List SourceLine}
    (hfound : (s.rescope φ).found? line = s.found? line)
    (hact : ∀ (v : State) rule k rest fs, v.scopes = s.scopes →
      s.found? line = some (rule, k, rest) → v.act line rest k = (fs, .ok t) →
        (v.rescope φ).act line rest k = (fs.map (.rescope φ), .ok (t.rescope φ)))
    (h : s.step line later = (es, .ok t)) :
    (s.rescope φ).step line later = (es.map (.rescope φ), .ok (t.rescope φ)) := by
  unfold step at h ⊢
  simp only [Prod.mk.injEq] at h
  obtain ⟨rfl, ht⟩ := h
  have hs : { s.rescope φ with pending := later } =
      ({ s with pending := later } : State).rescope φ := rfl
  have hv := found?_enter later line s
  have hvs := scopes_enter line { s with pending := later }
  simp only [hs, enter_rescope]
  generalize ({ s with pending := later }.enter line).2 = v at ht hv hvs
  have hv' : (v.rescope φ).found? line = v.found? line := by
    rw [hv, ← hfound, found?, found?, rescope, rescope, hvs]
  have hc : (v.rescope φ).countDispatched = v.countDispatched.rescope φ := rfl
  generalize hd : (v.dispatch line).1 = ds
  rcases dispatch_cases (Prod.ext hd ht) with ⟨hm, hu⟩ | ⟨rule, k, rest, fs, hm, rfl, ha⟩
  · rw [dispatch_of_not_found? (hv'.trans hm), hc, unmatched_rescope, hu, List.map_append]
  · rw [dispatch_of_found? (hv'.trans hm), hc,
      hact v.countDispatched rule k rest fs hvs (hv.symm.trans hm) ha, List.map_append]
    rfl

end State

end HeaderOutline
