import HeaderOutline.Proofs.TestNames
import Mathlib.Data.List.Nodup
/-!
# The fixtures of a scaffold

A scaffold writes a fixture for each class that can be reached from outside, when the class is
closed, and one for the functions outside all classes at the end. The fixture of a class has the
name of the class alone, whatever is around it, and the other one is named after the header. So the
fixtures are told by the callbacks: the ends of classes in their order, and whether there was a
function that no class is opened around.

Nothing else enters into their names. Two classes of one name in two namespaces have fixtures of one
name, and so have a class and the functions of a header that is called like the class.

Results:
* `suites_step`, `freeTests_step`: what one callback of a reading adds.
* `suites_of_front`: the suites while a reading goes on.
* `fixtures_nodup_iff`: the fixtures of a header, and when their names are distinct.
-/
namespace HeaderOutline
open State

/-- The name of the class that the callback closes, if it can be reached from outside. The class
itself is on top. -/
def Callback.closedClass? (c : Callback) : Option String :=
  match c.event with
  | .classEnd name => if ScopeStack.isPublic c.scopes.tail then some name else none
  | _ => none

/-- The names of the classes that some callbacks close and that can be reached from outside. -/
def closedClasses (cs : List Callback) : List String :=
  cs.filterMap Callback.closedClass?

/-- A test is written for what the callback reports, and no class is opened around it. -/
def Callback.isFreeTest (c : Callback) : Bool :=
  c.tested?.isSome && (c.scopes.classes.filter (·.opened)).isEmpty

/-! ## The end of a reading -/

theorem ne_parseEnd_enter (line : SourceLine) (s : State) :
    ∀ c ∈ callbacksOf (s.enter line).1, c.event ≠ .parseEnd := by
  unfold enter
  split
  · exact fun c hc => absurd hc List.not_mem_nil
  · cases s.group with
    | none => exact List.forall_mem_singleton.mpr nofun
    | some l => exact List.forall_mem_cons.mpr ⟨nofun, List.forall_mem_singleton.mpr nofun⟩

theorem ne_parseEnd_of_step {s : State} {line : SourceLine} {later : List SourceLine}
    {es : List Entry} {r : Except UnbalancedBrace State} (h : s.step line later = (es, r)) :
    ∀ c ∈ callbacksOf es, c.event ≠ .parseEnd := by
  simp only [step, Prod.mk.injEq] at h
  obtain ⟨rfl, -⟩ := h
  rw [callbacksOf_append]
  refine List.forall_mem_append.mpr ⟨ne_parseEnd_enter line _, fun c hc he => ?_⟩
  have hk := (isWithin_dispatch line _ c hc).1
  rw [he] at hk
  cases hk

theorem ne_parseEnd_of_reads {s t : State} {es : List Entry} (h : Reads s es t) :
    ∀ c ∈ callbacksOf es, c.event ≠ .parseEnd := by
  induction h with
  | refl => exact fun c hc => absurd hc List.not_mem_nil
  | next _ hs _ ih =>
    rw [callbacksOf_append]
    exact List.forall_mem_append.mpr ⟨ne_parseEnd_of_step hs, ih⟩

/-- The parse is ended last, if it is read to its end. -/
theorem callbacks_split (source : String) : ∃ front : List Callback,
    (∀ c ∈ front, c.event ≠ .parseEnd) ∧
      ((parse source).result.isOk = true ∧
          (∃ c, c.event = .parseEnd ∧ (parse source).callbacks = front ++ [c]) ∨
        (parse source).result.isOk = false ∧ (parse source).callbacks = front) := by
  obtain ⟨es, t, hr, ht | ⟨line, later, fs, e, hp, hs⟩⟩ := exists_reads (startOf source)
  · obtain ⟨hc, -, hok⟩ := parse_of_run (run_of_reads hr ht)
    refine ⟨⟨.parseStart, 0, []⟩ :: (callbacksOf es ++ callbacksOf t.ended), ?_, .inl ⟨?_, ?_⟩⟩
    · refine List.forall_mem_cons.mpr ⟨by simp, List.forall_mem_append.mpr
        ⟨ne_parseEnd_of_reads hr, ?_⟩⟩
      unfold ended
      cases t.group <;> simp [callbacksOf, callback]
    · rw [hok t rfl]
      rfl
    · refine ⟨⟨.parseEnd, t.line, t.scopes⟩, rfl, ?_⟩
      rw [hc, callbacksOf_append, callbacksOf_close, ← List.append_assoc]
      rfl
  · obtain ⟨hc, herr, -⟩ := parse_of_run (run_of_reads_error hr hp hs)
    refine ⟨_, ?_, .inr ⟨by rw [herr e rfl]; rfl, hc⟩⟩
    rw [callbacksOf_append]
    exact List.forall_mem_cons.mpr ⟨by simp, List.forall_mem_append.mpr
      ⟨ne_parseEnd_of_reads hr, ne_parseEnd_of_step hs⟩⟩

/-- The start of a class and its end have the same scopes around them. -/
theorem EndsStart.tail_eq {d c : Callback} {mid : List Callback} {name : String}
    (h : EndsStart d mid c) (hd : d.event = .classStart name) (hc : c.event = .classEnd name) :
    d.scopes.tail = c.scopes.tail := by
  have htail : ∀ fs : ScopeStack, (fs.setAccess .isPublic).tail = fs.tail := fun fs => by
    unfold ScopeStack.setAccess
    split <;> rfl
  obtain ⟨x, hdx, hcx⟩ := h.shown
  rcases d with ⟨_, n, fs⟩
  rcases c with ⟨_, m, gs⟩
  cases hd
  cases hc
  have hd : (fs.setAccess .isPublic) = x.stack := by cases hdx; rfl
  have hc : (gs.setAccess .isPublic) = x.stack := by cases hcx; rfl
  rw [← htail fs, ← htail gs, hd, hc]

namespace Scaffold

variable {s t : Scaffold} {c : Callback} {header : String}

/-! ## One callback -/

theorem suites_addTest (c : Callback) (function : String) (s : Scaffold) :
    (s.addTest c function).suites = s.suites := by
  unfold addTest
  split
  · simp only
    split <;> rfl
  · rfl

/-- Suites are written at the end of a class and at the end of the parse only. -/
theorem suites_next (hend : c.event ≠ .parseEnd) (hclass : ∀ name, c.event ≠ .classEnd name) :
    (s.next header c).suites = s.suites := by
  have htakes := takes_next header s c
  generalize s.next header c = t at htakes
  cases htakes with
  | nothing | start => rfl
  | part p _ hp =>
    cases p with
    | suite x => exact absurd rfl (hp x)
    | includes | usingNamespace => simp [suites_add]
  | test => exact suites_addTest ..
  | stop he => exact absurd he (hclass _)
  | finish he => exact absurd he hend

/-- The class that ends is written if it is on top and can be reached from outside. -/
theorem suites_endClass {k : OpenClass} {ks : List OpenClass} (hs : s.classes = k :: ks)
    {name : String} (hk : k.suite.name = name) :
    (s.endClass name).suites = s.suites ++ if k.isReachable then [k.suite] else [] := by
  simp only [endClass, hs, hk, ne_eq, not_true_eq_false, if_false]
  split
  · rw [suites_add]
    rfl
  · simp [suites]

theorem suites_endParse (header : String) (s : Scaffold) :
    (s.endParse header).suites = s.suites ++
      if s.freeTests = [] then [] else [⟨headerSuite header, s.freeTests⟩] := by
  unfold endParse
  split
  · next h => simp [List.isEmpty_iff.mp h]
  · next h =>
    have hne : s.freeTests ≠ [] := fun h' => h (List.isEmpty_iff.mpr h')
    rw [if_neg hne]
    exact suites_add ..

theorem addTest_ne_nil (test : String) (tests : List String) : Suite.addTest test tests ≠ [] := by
  unfold Suite.addTest
  split
  · next h =>
    rintro rfl
    cases h
  · simp

/-- A test is kept for the end of the parse just if no class is open. -/
theorem freeTests_addTest (c : Callback) (function : String) (s : Scaffold) :
    (s.addTest c function).freeTests = [] ↔
      s.freeTests = [] ∧ ¬ (c.scopes.isPublic = true ∧ s.classes = []) := by
  unfold addTest
  split
  · next hpublic =>
    simp only
    split
    · next hs => simp [hpublic, hs, addTest_ne_nil]
    · next hs => simp [hpublic, hs]
  · next hpublic => simp [hpublic]

theorem freeTests_endClass (name : String) (s : Scaffold) :
    (s.endClass name).freeTests = s.freeTests := by
  unfold endClass
  split
  · rfl
  · simp only
    split
    · rfl
    · split <;> rfl

theorem freeTests_next (hend : c.event ≠ .parseEnd) :
    (s.next header c).freeTests = [] ↔
      s.freeTests = [] ∧ ¬ (c.tested?.isSome = true ∧ s.classes = []) := by
  have hnone : c.event.tested? = none → ¬ (c.tested?.isSome = true ∧ s.classes = []) := by
    rintro h ⟨hsome, -⟩
    rw [Callback.tested?, h, ite_self] at hsome
    cases hsome
  have htakes := takes_next header s c
  generalize s.next header c = t at htakes
  cases htakes with
  | nothing h | part _ h => exact (and_iff_left (hnone h)).symm
  | @test function h =>
    have hpublic : c.tested?.isSome = c.scopes.isPublic := by
      rw [Callback.tested?, h]
      split <;> simp_all
    rw [freeTests_addTest, hpublic]
  | start h => exact (and_iff_left (hnone (by rw [h]; rfl))).symm
  | stop h =>
    rw [freeTests_endClass]
    exact (and_iff_left (hnone (by rw [h]; rfl))).symm
  | finish h => exact absurd h hend

/-! ## While a reading goes on -/

variable {source : String} {before after : List Callback}

/-- The open classes are those around the next callback, if this reports a construct. -/
theorem classes_eq_nil_iff (h : (parse source).callbacks = before ++ c :: after)
    (hk : c.event.isConstruct = true) :
    (ofCallbacks header before).classes = [] ↔
      c.scopes.classes.filter (·.opened) = [] := by
  obtain ⟨xs, hu, hnames⟩ := exists_unclosed_of_split h
  have hclasses := (classes_of_unclosed (s := Scaffold.start)
    (Skeleton.includeName header) hu rfl).1
  have hstart : Scaffold.start.classes.map OpenClass.untested = [] := rfl
  rw [hstart, List.append_nil] at hclasses
  have hmap : ((ofCallbacks header before).classes.map OpenClass.untested).map (·.suite.name) =
      (c.scopes.classes.filter (·.opened)).map (·.name) := by
    rw [← hnames hk]
    refine (congrArg (List.map (·.suite.name)) hclasses).trans ?_
    rw [List.map_map]
    rfl
  have hnil := congrArg (· = []) hmap
  simpa using hnil

/-- What one callback adds to the suites: at the end of a class that class, if it can be reached
from outside. -/
theorem suites_step (h : (parse source).callbacks = before ++ c :: after)
    (hend : c.event ≠ .parseEnd) :
    (ofCallbacks header (before ++ [c])).suites.map (·.name) =
      (ofCallbacks header before).suites.map (·.name) ++ c.closedClass?.toList := by
  have hnext : ofCallbacks header (before ++ [c]) =
      (ofCallbacks header before).next (Skeleton.includeName header) c := ofCallbacks_append ..
  rw [hnext]
  by_cases hclass : ∃ name, c.event = .classEnd name
  · obtain ⟨name, he⟩ := hclass
    obtain ⟨first, d, mid, rfl, hstart, hends⟩ := exists_start_of_classEnd h he
    have hmeets : Meets header first name d mid := meets_of_wellNested header hstart hends.nested
    obtain ⟨k, hk, hsame⟩ := hmeets.onTop
    have htail : d.scopes.tail = c.scopes.tail := hends.tail_eq hstart he
    have hname : k.suite.name = name := congrArg (·.suite.name) hsame
    have hreach : k.isReachable = ScopeStack.isPublic c.scopes.tail :=
      (congrArg (·.isReachable) hsame).trans (congrArg ScopeStack.isPublic htail)
    rw [next, he]
    simp only [suites_endClass hk hname, List.map_append, Callback.closedClass?, he, hreach]
    split <;> simp [hname]
  · have hno : ∀ name, c.event ≠ .classEnd name := fun name he => hclass ⟨name, he⟩
    have hnone : c.closedClass? = none := by
      unfold Callback.closedClass?
      split
      · next name he => exact absurd he (hno name)
      · rfl
    rw [suites_next hend hno, hnone]
    simp

theorem isConstruct_of_tested? (h : c.tested?.isSome = true) : c.event.isConstruct = true := by
  obtain ⟨function, hf⟩ := Option.isSome_iff_exists.mp h
  have he := Callback.event_of_tested? hf
  cases hc : c.event <;> rw [hc] at he <;> first | rfl | cases he

theorem freeTests_step (h : (parse source).callbacks = before ++ c :: after)
    (hend : c.event ≠ .parseEnd) :
    (ofCallbacks header (before ++ [c])).freeTests = [] ↔
      (ofCallbacks header before).freeTests = [] ∧ c.isFreeTest = false := by
  have hnext : ofCallbacks header (before ++ [c]) =
      (ofCallbacks header before).next (Skeleton.includeName header) c := ofCallbacks_append ..
  rw [hnext, freeTests_next hend]
  refine and_congr_right fun _ => ?_
  rw [← Bool.not_eq_true, Callback.isFreeTest, Bool.and_eq_true, List.isEmpty_iff]
  refine not_congr (and_congr_right fun hsome => ?_)
  exact classes_eq_nil_iff h (isConstruct_of_tested? hsome)

/-- The suites and the tests kept for the end, at any time of a reading. -/
theorem suites_of_front (header : String) (h : (parse source).callbacks = before ++ after)
    (hend : ∀ c ∈ before, c.event ≠ .parseEnd) :
    (ofCallbacks header before).suites.map (·.name) = closedClasses before ∧
      ((ofCallbacks header before).freeTests = [] ↔ before.any Callback.isFreeTest = false) := by
  induction before using List.reverseRecOn generalizing after with
  | nil => exact ⟨rfl, by simp [ofCallbacks, Scaffold.start]⟩
  | append_singleton before c ih =>
    rw [List.append_assoc, List.singleton_append] at h
    obtain ⟨hbefore, hc⟩ := List.forall_mem_append.mp hend
    have hc := hc c (List.mem_singleton.mpr rfl)
    obtain ⟨hsuites, hfree⟩ := ih h hbefore
    constructor
    · rw [suites_step h hc, hsuites, closedClasses, closedClasses, List.filterMap_append]
      cases hclosed : c.closedClass? <;> simp [hclosed]
    · rw [freeTests_step h hc, hfree]
      simp

/-- The suite for what is outside all classes is written: the parse is ended, and there was a test
for it. -/
def hasFreeSuite (source : String) : Bool :=
  (parse source).result.isOk && (parse source).callbacks.any Callback.isFreeTest

/-- The suites of a header that a scaffold reads: one for each class that is closed and can be
reached from outside, in their order, and at the end one with the name of the header. -/
theorem suites_of_reading (header source : String) :
    (ofCallbacks header (parse source).callbacks).suites.map (·.name) =
      closedClasses (parse source).callbacks ++
        if hasFreeSuite source then [headerSuite (Skeleton.includeName header)] else [] := by
  obtain ⟨front, hfront, ⟨hok, c, hc, hsplit⟩ | ⟨hfail, hsplit⟩⟩ := callbacks_split source
  · obtain ⟨hsuites, hfree⟩ := suites_of_front header hsplit hfront
    have hclosed : c.closedClass? = none := by rw [Callback.closedClass?, hc]
    have hnotest : c.isFreeTest = false := by
      rw [Callback.isFreeTest, Callback.tested?, hc]
      simp [Event.tested?]
    have hnext : ofCallbacks header (front ++ [c]) =
        (ofCallbacks header front).endParse (Skeleton.includeName header) := by
      rw [ofCallbacks_append]
      show Scaffold.next _ _ c = _
      rw [next, hc]
    have hhas : hasFreeSuite source = front.any Callback.isFreeTest := by
      rw [hasFreeSuite, hok, hsplit]
      simp [hnotest]
    rw [hhas, hsplit, hnext, suites_endParse, List.map_append, hsuites, closedClasses,
      closedClasses, List.filterMap_append]
    cases hany : front.any Callback.isFreeTest with
    | false => simp [hfree.mpr hany, hclosed]
    | true =>
      have hne : (ofCallbacks header front).freeTests ≠ [] := fun h => by
        rw [hfree.mp h] at hany
        cases hany
      simp [hne, hclosed]
  · have hall : (parse source).callbacks = front ++ [] := by rw [hsplit, List.append_nil]
    obtain ⟨hsuites, -⟩ := suites_of_front header hall hfront
    rw [hsplit, hsuites, hasFreeSuite, hfail]
    simp

def fixtures (header source : String) : List String :=
  (ofCallbacks header (parse source).callbacks).suites.map Suite.fixture

theorem fixture_injective : Function.Injective fun name : String => name ++ "Test" := by
  intro a b h
  have hlist := congrArg String.toList h
  simp only [String.toList_append, List.append_left_inj] at hlist
  exact String.toList_inj.mp hlist

/-- The fixtures of a header bear the names of the classes that are closed and can be reached from
outside, each of them without the scopes around it, and at the end that of the header. So no two
fixtures have the same name if and only if no two of these classes have, and none has the name of
the header while a fixture is written for that. -/
theorem fixtures_nodup_iff (header source : String) :
    fixtures header source =
        (closedClasses (parse source).callbacks ++
          if hasFreeSuite source then [headerSuite (Skeleton.includeName header)] else []).map
            (· ++ "Test") ∧
      ((fixtures header source).Nodup ↔
        (closedClasses (parse source).callbacks).Nodup ∧
          (hasFreeSuite source = true → headerSuite (Skeleton.includeName header) ∉
            closedClasses (parse source).callbacks)) := by
  have hfixtures : fixtures header source =
      (closedClasses (parse source).callbacks ++
        if hasFreeSuite source then [headerSuite (Skeleton.includeName header)] else []).map
          (· ++ "Test") := by
    rw [← suites_of_reading header source, List.map_map]
    rfl
  refine ⟨hfixtures, ?_⟩
  rw [hfixtures, List.nodup_map_iff fixture_injective]
  cases hasFreeSuite source with
  | false => simp
  | true =>
    rw [if_pos rfl, List.nodup_append_comm, List.singleton_append, List.nodup_cons, and_comm]
    simp

/-- A class that is called like its header. -/
example : fixtures "geometry.h" "class Geometry \x7b \x7d;\nvoid f();\n" =
    ["GeometryTest", "GeometryTest"] := by
  decide +kernel

/-- Two classes of one name in two namespaces. -/
def sameNames : String :=
  "namespace a \x7b\nstruct X \x7b void f(); \x7d;\n\x7d\n" ++
    "namespace b \x7b\nstruct X \x7b void g(); \x7d;\n\x7d\n"

/-- The classes have different qualified names, and their fixtures the same name. -/
theorem fixtures_collide_sameNames :
    ((Outline.ofCallbacks (parse sameNames).callbacks).classes.map (·.qualifiedName)).Nodup ∧
      ¬ (fixtures "shapes.h" sameNames).Nodup := by
  decide +kernel

end Scaffold

end HeaderOutline
