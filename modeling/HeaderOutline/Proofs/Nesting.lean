import HeaderOutline.Proofs.Move
import Mathlib.Data.List.Forall2
import Mathlib.Logic.Function.Basic
/-!
# Nesting of scope events

The starts and ends of namespaces and classes are brackets. A bracket is labelled by the sort and
the name that its event gives and by the stack that it shows, so that two equal labels mean one
frame: same head, same frames below. Of the stack only the access of the class on top is left out of
account, since labels inside the class change it.

At any time the brackets reported so far are a well-nested word with the starts of the opened frames
on the stack left over (`Unclosed`), and the heads that were announced and not used by a start are
those of the unopened frames (`Owns`).

Results:
* `unclosed_moves`, `shows_moves`, `owned_moves`: the three invariants along moves.
* `scope_events_nest`: what they say of a whole reading, successful or not.
-/
namespace HeaderOutline

/-- A namespace or class as its start and its end show it. -/
structure Shown where
  isClass : Bool
  name : String
  stack : ScopeStack
  deriving DecidableEq, Repr

inductive Bracket where
  | start (scope : Shown)
  | stop (scope : Shown)
  deriving DecidableEq, Repr

namespace Bracket

def isStart : Bracket → Bool
  | start _ => true
  | stop _ => false

def isStop : Bracket → Bool
  | start _ => false
  | stop _ => true

end Bracket

/-- The bracket of a call, with the access of the class on top left out of account. -/
def bracket? : Call → Option Bracket
  | (.nameSpaceStart name, fs) => some (.start ⟨false, name, fs⟩)
  | (.nameSpaceEnd name, fs) => some (.stop ⟨false, name, fs⟩)
  | (.classStart name, fs) => some (.start ⟨true, name, fs.setAccess .isPublic⟩)
  | (.classEnd name, fs) => some (.stop ⟨true, name, fs.setAccess .isPublic⟩)
  | _ => none

def brackets (cs : List Call) : List Bracket :=
  cs.filterMap bracket?

def ShowsFrame : Call → Prop
  | (.nameSpaceStart name, fs) | (.nameSpaceEnd name, fs) =>
    ∃ below, fs = .nameSpace name true :: below
  | (.classStart name, fs) | (.classEnd name, fs) =>
    ∃ c below, fs = .classBody c :: below ∧ c.name = name ∧ c.opened = true
  | _ => True

/-- The call announces the head of the scope: same sort, name and class head, same frames below. -/
def Announces : Call → Shown → Prop
  | (.nameSpace name, fs), x => x = ⟨false, name, .nameSpace name true :: fs⟩
  | (.classHead head, fs), x =>
    x = ⟨true, head.name, .classBody ⟨head.name, head.key, head.template, .isPublic, true⟩ :: fs⟩
  | _, _ => False

/-! ## Bracket words -/

/-- Every start has one end, and scopes do not overlap. -/
inductive WellNested : List Bracket → Prop
  | nil : WellNested []
  | wrap (x : Shown) {u v : List Bracket} : WellNested u → WellNested v →
      WellNested (.start x :: u ++ .stop x :: v)

theorem wellNested_append {u v : List Bracket} (hu : WellNested u) (hv : WellNested v) :
    WellNested (u ++ v) := by
  induction hu with
  | nil => exact hv
  | wrap x hu _ _ ih => simpa [List.append_assoc] using WellNested.wrap x hu ih

/-- The word is well-nested but for the starts of `xs`, innermost first, which have no end. -/
inductive Unclosed : List Shown → List Bracket → Prop
  | nil {u : List Bracket} : WellNested u → Unclosed [] u
  | cons (x : Shown) {xs : List Shown} {u v : List Bracket} : Unclosed xs u → WellNested v →
      Unclosed (x :: xs) (u ++ .start x :: v)

theorem unclosed_append {xs : List Shown} {u v : List Bracket} (h : Unclosed xs u)
    (hv : WellNested v) : Unclosed xs (u ++ v) := by
  cases h with
  | nil hu => exact .nil (wellNested_append hu hv)
  | cons x hu hw =>
    rw [List.append_assoc, List.cons_append]
    exact .cons x hu (wellNested_append hw hv)

theorem unclosed_start (x : Shown) {xs : List Shown} {u : List Bracket} (h : Unclosed xs u) :
    Unclosed (x :: xs) (u ++ [.start x]) :=
  .cons x h .nil

theorem unclosed_stop {x : Shown} {xs : List Shown} {u : List Bracket} (h : Unclosed (x :: xs) u) :
    Unclosed xs (u ++ [.stop x]) := by
  cases h with
  | cons _ hu hv =>
    rw [List.append_assoc]
    exact unclosed_append hu (by simpa using WellNested.wrap x hv .nil)

/-- What is left over can be closed, so the word is the front of a well-nested one. -/
theorem exists_wellNested : ∀ {xs : List Shown} {u : List Bracket}, Unclosed xs u →
    ∃ v, WellNested (u ++ v)
  | [], u, .nil hu => ⟨[], by simpa using hu⟩
  | _ :: _, u, h => by
    obtain ⟨v, hv⟩ := exists_wellNested (unclosed_stop h)
    exact ⟨_ :: v, by simpa using hv⟩

theorem countP_wellNested {u : List Bracket} (h : WellNested u) :
    u.countP Bracket.isStart = u.countP Bracket.isStop := by
  induction h with
  | nil => rfl
  | wrap x _ _ ih1 ih2 =>
    simp only [List.cons_append, List.countP_cons, List.countP_append, Bracket.isStart,
      Bracket.isStop, ih1, ih2]
    simp only [if_true, Bool.false_eq_true, if_false]
    omega

theorem countP_unclosed {xs : List Shown} {u : List Bracket} (h : Unclosed xs u) :
    u.countP Bracket.isStart = u.countP Bracket.isStop + xs.length := by
  induction h with
  | nil hu => exact countP_wellNested hu
  | cons x _ hv ih =>
    have := countP_wellNested hv
    simp only [List.countP_append, List.countP_cons, List.length_cons, Bracket.isStart,
      Bracket.isStop, ih, this]
    simp only [if_true, Bool.false_eq_true, if_false]
    omega

/-! ## Frames as they are shown -/

/-- The scope of a namespace or class frame with the frames below it, once it is opened. -/
def shown? (below : ScopeStack) : Frame → Option Shown
  | .nameSpace name _ => some ⟨false, name, .nameSpace name true :: below⟩
  | .classBody c =>
    some ⟨true, c.name, .classBody ⟨c.name, c.key, c.template, .isPublic, true⟩ :: below⟩
  | _ => none

/-- The scopes of the namespace and class frames with the given mark, innermost first. -/
def scopesMarked (opened : Bool) : ScopeStack → List Shown
  | [] => []
  | f :: fs => (if f.isOpened = opened then shown? fs f else none).toList ++ scopesMarked opened fs

theorem scopesMarked_cons_of_ne {opened : Bool} {f : Frame} {fs : ScopeStack}
    (h : f.isOpened = !opened) : scopesMarked opened (f :: fs) = scopesMarked opened fs := by
  cases opened <;> simp [scopesMarked, h]

theorem scopesMarked_cons_of_eq {opened : Bool} {f : Frame} {fs : ScopeStack}
    (h : f.isOpened = opened) :
    scopesMarked opened (f :: fs) = (shown? fs f).toList ++ scopesMarked opened fs := by
  simp [scopesMarked, h]

theorem shown?_opening (below : ScopeStack) (f : Frame) :
    shown? below f.opening = shown? below f := by
  cases f <;> rfl

theorem scopesMarked_setAccess (opened : Bool) (level : AccessLevel) (fs : ScopeStack) :
    scopesMarked opened (fs.setAccess level) = scopesMarked opened fs := by
  unfold ScopeStack.setAccess
  split <;> rfl

theorem scopesMarked_append {opened : Bool} {hs : ScopeStack} (fs : ScopeStack)
    (h : ∀ f ∈ hs, f.isOpened = !opened) :
    scopesMarked opened (hs ++ fs) = scopesMarked opened fs := by
  induction hs with
  | nil => rfl
  | cons f hs ih =>
    rw [List.cons_append, scopesMarked_cons_of_ne (h f List.mem_cons_self)]
    exact ih fun g hg => h g (List.mem_cons_of_mem _ hg)

def Frame.isOpenScope (f : Frame) : Bool :=
  f.isOpened && (f.kind == .nameSpace || f.class?.isSome)

theorem length_scopesMarked (fs : ScopeStack) :
    (scopesMarked true fs).length = fs.countP Frame.isOpenScope := by
  induction fs with
  | nil => rfl
  | cons f fs ih =>
    rw [List.countP_cons, ← ih, scopesMarked, List.length_append, Nat.add_comm]
    congr 1
    cases f with
    | nameSpace name o => cases o <;> rfl
    | classBody c => rcases c with ⟨_, _, t, _, _ | _⟩ <;> cases t <;> rfl
    | functionBody name o => cases o <;> rfl
    | linkage o => cases o <;> rfl
    | skip => rfl

/-! ## The invariants along moves -/

/-- What a move does to the brackets and the opened scopes. -/
theorem brackets_move {fs gs : ScopeStack} {cs : List Call} (hm : Move fs cs gs) :
    (brackets cs = [] ∧ scopesMarked true gs = scopesMarked true fs) ∨
      (∃ x, brackets cs = [.start x] ∧ scopesMarked true gs = x :: scopesMarked true fs) ∨
      ∃ x, brackets cs = [.stop x] ∧ scopesMarked true fs = x :: scopesMarked true gs := by
  cases hm with
  | stay | define | skips => exact .inl ⟨rfl, rfl⟩
  | @plain _ e _ he => exact .inl ⟨by cases e <;> simp [Event.isPlain] at he <;> rfl, rfl⟩
  | access level _ => exact .inl ⟨rfl, scopesMarked_setAccess true level fs⟩
  | linkage | nameSpace | classHead => exact .inl ⟨rfl, rfl⟩
  | @body _ e name _ he => exact .inl ⟨by cases e <;> simp [Event.bodyName?] at he <;> rfl, rfl⟩
  | @opens f fs ho =>
    rw [scopesMarked_cons_of_eq f.isOpened_opening, shown?_opening, scopesMarked_cons_of_ne ho]
    cases f with
    | nameSpace name o => exact .inr (.inl ⟨_, rfl, rfl⟩)
    | classBody c => exact .inr (.inl ⟨_, rfl, rfl⟩)
    | functionBody | linkage | skip => exact .inl ⟨rfl, rfl⟩
  | @closes hs f fs hh hf =>
    rw [scopesMarked_append _ hh, scopesMarked_cons_of_eq hf]
    cases f with
    | nameSpace name o => obtain rfl : o = true := hf; exact .inr (.inr ⟨_, rfl, rfl⟩)
    | classBody c => obtain ⟨_, _, _, _, _⟩ := c; cases hf; exact .inr (.inr ⟨_, rfl, rfl⟩)
    | functionBody | linkage | skip => exact .inl ⟨rfl, rfl⟩

/-- The starts without an end are those of the opened scopes on the stack. -/
theorem unclosed_moves {fs gs : ScopeStack} {cs : List Call} (hm : Moves fs cs gs) :
    ∀ {u : List Bracket}, Unclosed (scopesMarked true fs) u →
      Unclosed (scopesMarked true gs) (u ++ brackets cs) := by
  induction hm with
  | refl => intro u h; simpa [brackets] using h
  | @next fs gs hs cs ds hm _ ih =>
    intro u h
    have hsplit : brackets (cs ++ ds) = brackets cs ++ brackets ds := List.filterMap_append
    rw [hsplit, ← List.append_assoc]
    apply ih
    rcases brackets_move hm with ⟨hb, he⟩ | ⟨x, hb, he⟩ | ⟨x, hb, he⟩
    · rw [hb, he, List.append_nil]; exact h
    · rw [hb, he]; exact unclosed_start x h
    · rw [hb]; rw [he] at h; exact unclosed_stop h

theorem shows_move {fs gs : ScopeStack} {cs : List Call} (hm : Move fs cs gs) :
    ∀ c ∈ cs, ShowsFrame c := by
  intro c hc
  cases hm with
  | stay | access | linkage | skips => cases hc
  | define | nameSpace | classHead => cases List.mem_singleton.mp hc; trivial
  | @plain _ e _ he =>
    cases List.mem_singleton.mp hc
    cases e <;> simp [Event.isPlain] at he <;> trivial
  | @body _ e name _ he =>
    cases List.mem_singleton.mp hc
    cases e <;> simp [Event.bodyName?] at he <;> trivial
  | @opens f fs ho =>
    obtain ⟨e, he, rfl⟩ := List.mem_map.mp hc
    cases f with
    | nameSpace name o => cases List.mem_singleton.mp he; exact ⟨fs, rfl⟩
    | classBody c => cases List.mem_singleton.mp he; exact ⟨_, fs, rfl, rfl, rfl⟩
    | functionBody | linkage | skip => cases he
  | @closes hs f gs hh hf =>
    obtain ⟨e, he, rfl⟩ := List.mem_map.mp hc
    cases f with
    | nameSpace name o =>
      obtain rfl : o = true := hf
      cases List.mem_singleton.mp he; exact ⟨gs, rfl⟩
    | classBody c => cases List.mem_singleton.mp he; exact ⟨c, gs, rfl, rfl, hf⟩
    | functionBody | linkage | skip => cases he

theorem shows_moves {fs gs : ScopeStack} {cs : List Call} (hm : Moves fs cs gs) :
    ∀ c ∈ cs, ShowsFrame c := by
  induction hm with
  | refl => intro c hc; cases hc
  | next hm _ ih =>
    intro c hc
    rcases List.mem_append.mp hc with hc | hc
    · exact shows_move hm c hc
    · exact ih c hc

/-! ## Announcements -/

/-- The call at position `i` is the start of the scope. -/
def StartsAt (cs : List Call) (i : Nat) (x : Shown) : Prop :=
  ∃ c, cs[i]? = some c ∧ bracket? c = some (.start x)

/-- The call at position `j` announces the head of the scope. -/
def AnnouncedAt (cs : List Call) (j : Nat) (x : Shown) : Prop :=
  ∃ c, cs[j]? = some c ∧ Announces c x

/-- `own` gives every start an earlier announcement of its own, and `slots` are the announcements of
the scopes `xs` that wait for their start. -/
structure Owns (cs : List Call) (own : Nat → Nat) (slots : List Nat) (xs : List Shown) : Prop where
  waiting : List.Forall₂ (AnnouncedAt cs) slots xs
  nodup : slots.Nodup
  started : ∀ i x, StartsAt cs i x → own i < i ∧ AnnouncedAt cs (own i) x ∧ own i ∉ slots
  injective : ∀ i j x y, StartsAt cs i x → StartsAt cs j y → own i = own j → i = j

theorem announcedAt_append {cs : List Call} {j : Nat} {x : Shown} (h : AnnouncedAt cs j x)
    (ds : List Call) : AnnouncedAt (cs ++ ds) j x := by
  obtain ⟨c, hc, hx⟩ := h
  obtain ⟨hj, -⟩ := List.getElem?_eq_some_iff.mp hc
  exact ⟨c, by rw [List.getElem?_append_left hj, hc], hx⟩

theorem lt_of_announcedAt {cs : List Call} {j : Nat} {x : Shown} (h : AnnouncedAt cs j x) :
    j < cs.length := by
  obtain ⟨c, hc, -⟩ := h
  exact (List.getElem?_eq_some_iff.mp hc).1

theorem lt_of_startsAt {cs : List Call} {i : Nat} {x : Shown} (h : StartsAt cs i x) :
    i < cs.length := by
  obtain ⟨c, hc, -⟩ := h
  exact (List.getElem?_eq_some_iff.mp hc).1

/-- A start among some calls and one more is among these calls or is the last one. -/
theorem startsAt_concat {cs : List Call} {c : Call} {i : Nat} {x : Shown}
    (h : StartsAt (cs ++ [c]) i x) :
    StartsAt cs i x ∨ (i = cs.length ∧ bracket? c = some (.start x)) := by
  have hi := lt_of_startsAt h
  obtain ⟨d, hd, hx⟩ := h
  rw [List.length_append, List.length_singleton] at hi
  by_cases hlt : i < cs.length
  · rw [List.getElem?_append_left hlt] at hd
    exact .inl ⟨d, hd, hx⟩
  · obtain rfl : i = cs.length := by omega
    rw [List.getElem?_concat_length, Option.some.injEq] at hd
    exact .inr ⟨rfl, hd ▸ hx⟩

variable {cs : List Call} {own : Nat → Nat} {slots : List Nat} {xs : List Shown}

theorem owns_nil : Owns [] id [] [] where
  waiting := .nil
  nodup := .nil
  started _ _ h := absurd (lt_of_startsAt h) (Nat.not_lt_zero _)
  injective _ _ _ _ h := absurd (lt_of_startsAt h) (Nat.not_lt_zero _)

theorem slot_lt (h : Owns cs own slots xs) : ∀ j ∈ slots, j < cs.length := by
  obtain ⟨hw, -, -, -⟩ := h
  induction hw with
  | nil => intro j hj; cases hj
  | cons ha _ ih =>
    intro j hj
    rcases List.mem_cons.mp hj with rfl | hj
    · exact lt_of_announcedAt ha
    · exact ih j hj

theorem owns_concat (h : Owns cs own slots xs) {c : Call}
    (hc : ∀ x, bracket? c ≠ some (.start x)) : Owns (cs ++ [c]) own slots xs := by
  have hs : ∀ {i x}, StartsAt (cs ++ [c]) i x → StartsAt cs i x := fun hi =>
    (startsAt_concat hi).resolve_right fun hl => hc _ hl.2
  refine ⟨h.waiting.imp fun _ _ ha => announcedAt_append ha _, h.nodup, fun i x hi => ?_,
    fun i j x y hi hj => h.injective i j x y (hs hi) (hs hj)⟩
  obtain ⟨h1, h2, h3⟩ := h.started i x (hs hi)
  exact ⟨h1, announcedAt_append h2 _, h3⟩

theorem owns_append : ∀ {ds cs : List Call}, Owns cs own slots xs →
    (∀ c ∈ ds, ∀ x, bracket? c ≠ some (.start x)) → Owns (cs ++ ds) own slots xs
  | [], cs, h, _ => by simpa using h
  | c :: ds, cs, h, hd => by
    have h1 := owns_concat h (hd c List.mem_cons_self)
    have h2 := owns_append h1 fun d hm => hd d (List.mem_cons_of_mem _ hm)
    simpa using h2

/-- An announcement adds a scope that waits. -/
theorem owns_announce (h : Owns cs own slots xs) {c : Call} {x : Shown} (ha : Announces c x) :
    Owns (cs ++ [c]) own (cs.length :: slots) (x :: xs) := by
  have hc : ∀ y, bracket? c ≠ some (.start y) := by
    intro y hb
    obtain ⟨e, fs⟩ := c
    cases e <;> simp [Announces, bracket?] at ha hb
  have h' := owns_concat h hc
  refine ⟨.cons ⟨c, List.getElem?_concat_length .., ha⟩ h'.waiting,
    List.nodup_cons.mpr ⟨fun hm => Nat.lt_irrefl _ (slot_lt h _ hm), h.nodup⟩, fun i y hi => ?_,
    h'.injective⟩
  obtain ⟨h1, h2, h3⟩ := h'.started i y hi
  have hlt : i < cs.length := by
    rcases startsAt_concat hi with hi | ⟨-, hb⟩
    · exact lt_of_startsAt hi
    · exact absurd hb (hc y)
  refine ⟨h1, h2, fun hm => ?_⟩
  rcases List.mem_cons.mp hm with he | hm
  · omega
  · exact h3 hm

/-- A start takes the announcement of the innermost scope that waits. -/
theorem owns_start {x : Shown} (h : Owns cs own slots (x :: xs)) {c : Call}
    (hc : bracket? c = some (.start x)) : ∃ own' slots', Owns (cs ++ [c]) own' slots' xs := by
  obtain ⟨hw, hn, hst, hinj⟩ := h
  cases hw with
  | @cons j _ slots' _ ha hw =>
    obtain ⟨hj, hn⟩ := List.nodup_cons.mp hn
    have hjlt := lt_of_announcedAt ha
    -- Only the new start gets a new value, so the old ones keep theirs.
    have hold : ∀ {i y}, StartsAt cs i y → Function.update own cs.length j i = own i := fun hi =>
      Function.update_of_ne (Nat.ne_of_lt (lt_of_startsAt hi)) ..
    have hnew : Function.update own cs.length j cs.length = j := Function.update_self ..
    refine ⟨Function.update own cs.length j, slots',
      hw.imp fun _ _ ha => announcedAt_append ha _, hn, fun i y hi => ?_,
      fun i k y z hi hk he => ?_⟩
    · rcases startsAt_concat hi with hi | ⟨rfl, hb⟩
      · obtain ⟨h1, h2, h3⟩ := hst i y hi
        rw [hold hi]
        exact ⟨h1, announcedAt_append h2 _, fun hm => h3 (List.mem_cons_of_mem _ hm)⟩
      · rw [hc] at hb
        cases hb
        rw [hnew]
        exact ⟨hjlt, announcedAt_append ha _, hj⟩
    · rcases startsAt_concat hi with hi | ⟨rfl, -⟩ <;>
        rcases startsAt_concat hk with hk | ⟨rfl, -⟩
      · rw [hold hi, hold hk] at he
        exact hinj i k y z hi hk he
      · rw [hold hi, hnew] at he
        exact absurd (he ▸ List.mem_cons_self) (hst i y hi).2.2
      · rw [hold hk, hnew] at he
        exact absurd (he ▸ List.mem_cons_self) (hst k z hk).2.2
      · rfl

/-- Scopes that no longer wait leave their announcements unused. -/
theorem owns_suffix {ys : List Shown} (h : Owns cs own slots xs) (hs : ys <:+ xs) :
    ∃ slots', Owns cs own slots' ys := by
  obtain ⟨hw, hn, hst, hinj⟩ := h
  obtain ⟨zs, rfl⟩ := hs
  have hd := List.forall₂_drop zs.length hw
  rw [List.drop_left] at hd
  refine ⟨slots.drop zs.length, hd, hn.sublist (List.drop_sublist ..), fun i x hi => ?_, hinj⟩
  obtain ⟨h1, h2, h3⟩ := hst i x hi
  exact ⟨h1, h2, fun hm => h3 (List.mem_of_mem_drop hm)⟩

theorem scopesMarked_suffix (opened : Bool) (hs fs : ScopeStack) :
    scopesMarked opened fs <:+ scopesMarked opened (hs ++ fs) := by
  induction hs with
  | nil => exact List.suffix_refl _
  | cons f hs ih => exact ih.trans (List.suffix_append ..)

/-- What a move does to the scopes that wait for their start. -/
theorem waiting_move {fs gs : ScopeStack} {cs : List Call} (hm : Move fs cs gs) :
    ((∀ c ∈ cs, ∀ x, bracket? c ≠ some (.start x)) ∧
        scopesMarked false gs <:+ scopesMarked false fs) ∨
      (∃ c x, cs = [c] ∧ Announces c x ∧ scopesMarked false gs = x :: scopesMarked false fs) ∨
      ∃ c x, cs = [c] ∧ bracket? c = some (.start x) ∧
        scopesMarked false fs = x :: scopesMarked false gs := by
  have one : ∀ {c : Call}, bracket? c = none → ∀ d ∈ [c], ∀ x, bracket? d ≠ some (.start x) := by
    intro c hc d hd x
    rw [List.mem_singleton.mp hd, hc]
    simp
  cases hm with
  | stay | skips | linkage => exact .inl ⟨by simp, List.suffix_refl _⟩
  | access level _ =>
    exact .inl ⟨by simp, (scopesMarked_setAccess false level fs).symm ▸ List.suffix_refl _⟩
  | define => exact .inl ⟨one rfl, List.suffix_refl _⟩
  | @plain _ e _ he =>
    exact .inl ⟨one (by cases e <;> simp [Event.isPlain] at he <;> rfl), List.suffix_refl _⟩
  | @body _ e name _ he =>
    exact .inl ⟨one (by cases e <;> simp [Event.bodyName?] at he <;> rfl), List.suffix_refl _⟩
  | nameSpace name _ => exact .inr (.inl ⟨_, _, rfl, rfl, rfl⟩)
  | classHead head _ => exact .inr (.inl ⟨_, _, rfl, rfl, rfl⟩)
  | @opens f fs ho =>
    rw [scopesMarked_cons_of_ne f.isOpened_opening, scopesMarked_cons_of_eq ho]
    cases f with
    | nameSpace name o => exact .inr (.inr ⟨_, _, rfl, rfl, rfl⟩)
    | classBody c => exact .inr (.inr ⟨_, _, rfl, rfl, rfl⟩)
    | functionBody | linkage | skip => exact .inl ⟨by simp [State.startEvent?], List.suffix_refl _⟩
  | @closes hs f gs hh hf =>
    refine .inl ⟨?_, ?_⟩
    · cases f <;> simp [State.endEvent?, bracket?]
    · have := scopesMarked_suffix false (hs ++ [f]) gs
      simpa using this

/-- Every start has an announcement of its own, whatever moves were made. -/
theorem owned_moves {fs gs : ScopeStack} {ds : List Call} (hm : Moves fs ds gs) :
    ∀ {us : List Call} {own : Nat → Nat} {slots : List Nat},
      Owns us own slots (scopesMarked false fs) →
      ∃ own' slots', Owns (us ++ ds) own' slots' (scopesMarked false gs) := by
  induction hm with
  | refl => intro us own slots h; exact ⟨own, slots, by simpa using h⟩
  | @next fs gs hs cs ds hm _ ih =>
    intro us own slots h
    rw [← List.append_assoc]
    suffices hn : ∃ own' slots', Owns (us ++ cs) own' slots' (scopesMarked false gs) by
      obtain ⟨own', slots', hn⟩ := hn
      exact ih hn
    rcases waiting_move hm with ⟨hc, hs⟩ | ⟨c, x, rfl, hc, he⟩ | ⟨c, x, rfl, hc, he⟩
    · obtain ⟨slots', h⟩ := owns_suffix h hs
      exact ⟨own, slots', owns_append h hc⟩
    · rw [he]; exact ⟨_, _, owns_announce h hc⟩
    · rw [he] at h; exact owns_start h hc

/-! ## Whole readings -/

/-- The starts and ends of a reading, whether it succeeds or fails, are the front of a well-nested
word whose brackets pair equal scopes. Each shows its frame on top of the stack, opened. Each start
has an earlier announcement of its own. When the reading succeeds, the starts without an end are as
many as the opened namespaces and classes left on the stack, and with nothing left the word is
well-nested as it stands. -/
theorem scope_events_nest (source : String) :
    (∃ later, WellNested (brackets (parse source).calls ++ later)) ∧
    (∀ c ∈ (parse source).calls, ShowsFrame c) ∧
    (∃ own : Nat → Nat,
      (∀ i x, StartsAt (parse source).calls i x →
        own i < i ∧ AnnouncedAt (parse source).calls (own i) x) ∧
      ∀ i j x y, StartsAt (parse source).calls i x → StartsAt (parse source).calls j y →
        own i = own j → i = j) ∧
    ∀ f, (parse source).result = .ok f →
      (∃ t, Reachable source t ∧ t.pending = [] ∧ f.summary.unclosedScopes = t.scopes.length ∧
        (brackets (parse source).calls).countP Bracket.isStart =
          (brackets (parse source).calls).countP Bracket.isStop +
            t.scopes.countP Frame.isOpenScope) ∧
      (f.summary.unclosedScopes = 0 → WellNested (brackets (parse source).calls)) := by
  obtain ⟨fs, hm, -⟩ := parse_moves source
  obtain ⟨own, slots, ho⟩ := owned_moves hm owns_nil
  refine ⟨exists_wellNested (unclosed_moves hm (.nil .nil)), shows_moves hm,
    ⟨own, fun i x hi => ?_, ho.injective⟩, fun f hf => ?_⟩
  · obtain ⟨h1, h2, -⟩ := ho.started i x hi
    exact ⟨h1, h2⟩
  · obtain ⟨es, t, hr, ⟨hp, hc, g, hg, hlen, -⟩ | ⟨_, _, _, _, -, -, -, he⟩⟩ := parse_cases source
    · rw [hf] at hg
      cases hg
      have hu : Unclosed (scopesMarked true t.scopes) (brackets (parse source).calls) := by
        rw [hc]
        exact unclosed_moves (State.moves_of_reads hr) (.nil .nil)
      refine ⟨⟨t, ⟨es, hr⟩, hp, hlen, ?_⟩, fun h0 => ?_⟩
      · rw [countP_unclosed hu, length_scopesMarked]
      · have hnil : t.scopes = [] := List.eq_nil_of_length_eq_zero (hlen ▸ h0)
        rw [hnil] at hu
        cases hu with
        | nil hu => exact hu
    · rw [hf] at he
      cases he

end HeaderOutline
