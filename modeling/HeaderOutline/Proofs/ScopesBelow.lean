import HeaderOutline.Outline.Collect
import HeaderOutline.Proofs.Rescoping
/-!
# Linkage blocks below

A reading asks its scopes for the context, for the class on top, for the top of the stack at an
opening brace, and for the innermost opened frame at a closing one. Opened linkage blocks at the
bottom of the stack answer the first three as no frame at all does; the last finds one of them only
where it would find nothing, and the reading would fail. So as long as it does not fail, a reading
takes the same course with such frames below its own.

Results:
* `context_below`, `path_below` and so on: what is asked of the scopes.
* `step_below`, `reads_below`: steps and courses.
-/
namespace HeaderOutline

namespace ScopeStack

def AllLinkage (base : ScopeStack) : Prop :=
  ∀ f ∈ base, f = .linkage true

theorem AllLinkage.one : AllLinkage [.linkage true] := fun _ h => List.mem_singleton.mp h

variable {base : ScopeStack}

/-- Frames that a linkage block has none of are not found in the base. -/
theorem filterMap_below {α : Type} {g : Frame → Option α} (hg : ∀ o, g (.linkage o) = none)
    (hb : AllLinkage base) (fs : ScopeStack) : (fs ++ base).filterMap g = fs.filterMap g := by
  have h : base.filterMap g = [] := List.filterMap_eq_nil_iff.mpr fun f hf => by
    rw [hb f hf, hg]
  rw [List.filterMap_append, h, List.append_nil]

theorem context_below (hb : AllLinkage base) (fs : ScopeStack) :
    context (fs ++ base) = context fs := by
  induction fs with
  | nil =>
    induction base with
    | nil => rfl
    | cons f base ih =>
      rw [hb f List.mem_cons_self]
      exact ih fun g hg => hb g (List.mem_cons_of_mem _ hg)
  | cons f fs ih => cases f <;> first | exact ih | rfl

theorem topClass?_below (hb : AllLinkage base) (fs : ScopeStack) :
    topClass? (fs ++ base) = topClass? fs := by
  cases fs with
  | nil =>
    cases base with
    | nil => rfl
    | cons f base =>
      rw [hb f List.mem_cons_self]
      rfl
  | cons => rfl

theorem setAccess_below (hb : AllLinkage base) (level : AccessLevel) (fs : ScopeStack) :
    setAccess level (fs ++ base) = setAccess level fs ++ base := by
  cases fs with
  | nil =>
    cases base with
    | nil => rfl
    | cons f base =>
      rw [hb f List.mem_cons_self]
      rfl
  | cons f => cases f <;> rfl

theorem classes_below (hb : AllLinkage base) (fs : ScopeStack) :
    classes (fs ++ base) = classes fs :=
  filterMap_below (fun _ => rfl) hb fs

theorem path_below (hb : AllLinkage base) (fs : ScopeStack) : path (fs ++ base) = path fs := by
  rw [path, filterMap_below (fun _ => rfl) hb, path]

end ScopeStack

namespace State

variable {base : ScopeStack} {s t : State} {line : SourceLine} {es : List Entry}

/-! ## Parts of a step -/

theorem found?_below (hb : base.AllLinkage) (line : SourceLine) (s : State) :
    (s.rescope (· ++ base)).found? line = s.found? line := by
  simp only [found?, rescope, ScopeStack.context_below hb, ScopeStack.topClass?_below hb]

/-- In no scope a brace is skipped, and so it is where the top of the stack is opened. -/
theorem openBrace_below (hb : base.AllLinkage) (s : State) :
    (s.rescope (· ++ base)).openBrace =
      (s.openBrace.1.map (.rescope (· ++ base)), s.openBrace.2.rescope (· ++ base)) := by
  have hs : (s.rescope (· ++ base)).scopes = s.scopes ++ base := rfl
  unfold openBrace
  rw [hs]
  cases h : s.scopes with
  | nil =>
    cases base with
    | nil => simp [push, rescope, h]
    | cons f base =>
      rw [hb f List.mem_cons_self]
      simp [push, rescope, h, Frame.isOpened]
  | cons f fs =>
    simp only [List.cons_append]
    split
    · simp [push, rescope, h]
    · cases f <;> rfl

theorem closeBrace_below {number : Nat} (h : s.closeBrace number = (es, .ok t)) :
    (s.rescope (· ++ base)).closeBrace number =
      (es.map (.rescope (· ++ base)), .ok (t.rescope (· ++ base))) := by
  have hs : (s.rescope (· ++ base)).scopes = s.scopes ++ base := rfl
  unfold closeBrace at h ⊢
  simp only [hs] at h ⊢
  split at h
  · cases h
  · next f fs hd =>
    cases h
    have hsplit := congrArg List.length
      (List.takeWhile_append_dropWhile (p := fun f : Frame => !f.isOpened) (l := s.scopes))
    have hlen : ¬ (s.scopes.takeWhile (!·.isOpened)).length = s.scopes.length := by
      rw [List.length_append, hd, List.length_cons] at hsplit
      omega
    rw [List.dropWhile_append, hd, List.takeWhile_append, if_neg hlen]
    simp only [List.isEmpty_cons, Bool.false_eq_true, if_false, List.cons_append, List.map_append,
      List.map_map]
    cases f <;> rfl

theorem perform_below (hb : base.AllLinkage) (k : Construct) (s : State) :
    (s.rescope (· ++ base)).perform k =
      ((s.perform k).1.map (.rescope (· ++ base)), (s.perform k).2.rescope (· ++ base)) := by
  have hpush : ∀ gs, (gs ++ s.scopes) ++ base = gs ++ (s.scopes ++ base) := fun gs =>
    List.append_assoc ..
  cases k with
  | define name value => exact define_rescope ..
  | access level =>
    simp only [perform, rescope, ScopeStack.setAccess_below hb]
    rfl
  | linkage block => cases block <;> rfl
  | nameSpace | classHead => exact report_rescope (hpush _) _
  | function _ terminated | constructor _ terminated | destructor _ terminated =>
    cases terminated <;> exact report_rescope (hpush _) _
  | openBrace => exact openBrace_below hb s
  | directive | statement | enumHead | closeBrace => rfl

/-! ## Steps -/

/-- A step that succeeds is the same above opened linkage blocks. -/
theorem step_below (hb : base.AllLinkage) {later : List SourceLine}
    (h : s.step line later = (es, .ok t)) :
    (s.rescope (· ++ base)).step line later =
      (es.map (.rescope (· ++ base)), .ok (t.rescope (· ++ base))) :=
  step_rescope (found?_below hb line s) (fun v _ k _ _ _ _ ha =>
    act_rescope (perform_below hb k v) (fun _ _ _ => closeBrace_below) ha) h

/-- So is a course. -/
theorem reads_below (hb : base.AllLinkage) (h : Reads s es t) :
    Reads (s.rescope (· ++ base)) (es.map (.rescope (· ++ base))) (t.rescope (· ++ base)) := by
  induction h with
  | refl => exact .refl _
  | next hp hs _ ih =>
    rw [List.map_append]
    exact .next hp (step_below hb hs) ih

end State

end HeaderOutline
