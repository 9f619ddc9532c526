import HeaderOutline.Proofs.Effects
import HeaderOutline.Proofs.LineAttribution
import HeaderOutline.Proofs.Nesting
import HeaderOutline.Scaffold
/-!
# The open classes of a scaffold

A scaffold keeps the classes that have started and not ended on a stack of its own. It is told of
starts and ends only, and these nest (`WellNested`): between the start of a class and its end the
brackets make a well-nested word, and such a word leaves a scaffold with the classes that it had,
apart from the tests of the one on top (`sameBelow_of_wellNested`). So an end finds the class of its
own start on top, and never a mismatch.

A reading that stops at an error, or leaves scopes open, leaves the classes of its unclosed starts
on the stack. The next reading puts its own on top of these and takes away none of them
(`classes_of_unclosed`), since what it reports is the front of a well-nested word in its own right.

Results:
* `moves_split`: every call is made by one move, from the scopes that the calls before lead to.
* `classes_of_unclosed`: the classes that a reading leaves open.
* `scaffold_never_mismatches`: scaffolds along any readings.
-/
namespace HeaderOutline

/-! ## Calls and moves -/

/-- Every call is made by one move, from the scopes that the calls before lead to. -/
theorem moves_split {fs gs : ScopeStack} {as bs : List Call} {c : Call}
    (h : Moves fs (as ++ c :: bs) gs) :
    ∃ hs hs', Moves fs as hs ∧ Move hs [c] hs' ∧ Moves hs' bs gs := by
  generalize heq : as ++ c :: bs = cs at h
  induction h generalizing as with
  | refl => simp at heq
  | @next fs gs hs cs ds hm hms ih =>
    rcases hm.calls_cases with rfl | ⟨d, rfl⟩
    · obtain ⟨ks, ks', h1, h2, h3⟩ := ih heq
      exact ⟨ks, ks', .next hm h1, h2, h3⟩
    · cases as with
      | nil =>
        obtain ⟨rfl, rfl⟩ := List.cons.inj heq
        exact ⟨fs, gs, .refl fs, hm, hms⟩
      | cons a as =>
        obtain ⟨rfl, htail⟩ := List.cons.inj heq
        obtain ⟨ks, ks', h1, h2, h3⟩ := ih htail
        exact ⟨ks, ks', .next hm h1, h2, h3⟩

theorem moves_front {fs gs : ScopeStack} {as bs : List Call} (h : Moves fs (as ++ bs) gs) :
    ∃ hs, Moves fs as hs := by
  cases bs with
  | nil => exact ⟨gs, by simpa using h⟩
  | cons c bs =>
    obtain ⟨hs, -, h, -⟩ := moves_split h
    exact ⟨hs, h⟩

def bracketsOf (cs : List Callback) : List Bracket :=
  cs.filterMap fun c => bracket? c.call

theorem bracketsOf_append (cs ds : List Callback) :
    bracketsOf (cs ++ ds) = bracketsOf cs ++ bracketsOf ds :=
  List.filterMap_append

theorem bracketsOf_eq (cs : List Callback) :
    bracketsOf cs = brackets ((structural cs).map Callback.call) := by
  induction cs with
  | nil => rfl
  | cons c cs ih =>
    rw [← List.singleton_append, bracketsOf_append, structural_append, List.map_append, brackets,
      List.filterMap_append, ih]
    obtain ⟨e, n, fs⟩ := c
    cases e <;> rfl

theorem exists_of_bracketsOf {cs : List Callback} {u v : List Bracket} {b : Bracket}
    (h : bracketsOf cs = u ++ b :: v) :
    ∃ as c bs, cs = as ++ c :: bs ∧ bracketsOf as = u ∧ bracket? c.call = some b ∧
      bracketsOf bs = v := by
  obtain ⟨as, bs, rfl, hu, hb⟩ := List.filterMap_eq_append_iff.mp h
  obtain ⟨as', c, bs, rfl, hnone, hc, hv⟩ := List.filterMap_eq_cons_iff.mp hb
  refine ⟨as ++ as', c, bs, by simp, ?_, hc, hv⟩
  rw [bracketsOf_append, show bracketsOf as = u from hu,
    show bracketsOf as' = [] from List.filterMap_eq_nil_iff.mpr hnone, List.append_nil]

/-- The callbacks of a scope and of what comes behind it. -/
theorem exists_scope_of_bracketsOf {cs : List Callback} {x : Shown} {u v : List Bracket}
    (h : bracketsOf cs = .start x :: u ++ .stop x :: v) :
    ∃ as d mid c bs, cs = as ++ d :: (mid ++ c :: bs) ∧ bracketsOf as = [] ∧
      bracket? d.call = some (.start x) ∧ bracketsOf mid = u ∧
      bracket? c.call = some (.stop x) ∧ bracketsOf bs = v := by
  obtain ⟨as, d, rest, rfl, has, hd, hrest⟩ := exists_of_bracketsOf (u := []) h
  obtain ⟨mid, c, bs, rfl, hmid, hc, hbs⟩ := exists_of_bracketsOf hrest
  exact ⟨as, d, mid, c, bs, rfl, has, hd, hmid, hc, hbs⟩

theorem prefix_append_cons {α : Type} {ds as bs : List α} {c : α} (h : ds <+: as ++ c :: bs) :
    ds <+: as ∨ ∃ es, ds = as ++ c :: es ∧ es <+: bs := by
  induction as generalizing ds with
  | nil =>
    rcases List.prefix_cons_iff.mp h with rfl | ⟨es, rfl, hes⟩
    · exact .inl List.nil_prefix
    · exact .inr ⟨es, rfl, hes⟩
  | cons a as ih =>
    rcases List.prefix_cons_iff.mp h with rfl | ⟨es, rfl, hes⟩
    · exact .inl List.nil_prefix
    · rcases ih hes with hes | ⟨fs, rfl, hfs⟩
      · exact .inl (List.cons_prefix_cons.mpr ⟨rfl, hes⟩)
      · exact .inr ⟨fs, rfl, hfs⟩

namespace Scaffold

def OpenClass.untested (k : OpenClass) : OpenClass :=
  { k with suite.tests := [] }

/-- The class that is pushed when its scope starts. -/
def classOf (x : Shown) : OpenClass :=
  ⟨⟨x.name, []⟩, ScopeStack.isPublic x.stack.tail⟩

/-- Two scaffolds with the same open classes, apart from the tests of the one on top. -/
structure SameBelow (s t : Scaffold) : Prop where
  below : t.classes.tail = s.classes.tail
  classes : t.classes.map OpenClass.untested = s.classes.map OpenClass.untested
  mismatch : t.mismatch = s.mismatch

variable {s t u : Scaffold} {c d : Callback} {x : Shown} (header : String)

namespace SameBelow

theorem refl (s : Scaffold) : SameBelow s s := ⟨rfl, rfl, rfl⟩

theorem trans (h : SameBelow s t) (h' : SameBelow t u) : SameBelow s u :=
  ⟨h'.below.trans h.below, h'.classes.trans h.classes, h'.mismatch.trans h.mismatch⟩

theorem exists_cons (h : SameBelow s t) {k : OpenClass} {ks : List OpenClass}
    (hs : s.classes = k :: ks) : ∃ j, t.classes = j :: ks ∧ j.untested = k.untested := by
  have hc := h.classes
  have hb := h.below
  rw [hs] at hc hb
  cases ht : t.classes with
  | nil => rw [ht] at hc; cases hc
  | cons j js =>
    rw [ht] at hc hb
    exact ⟨j, by rw [show js = ks from hb], (List.cons.inj hc).1⟩

end SameBelow

/-! ## One callback -/

theorem sameBelow_addTest (c : Callback) (test : String) (s : Scaffold) :
    SameBelow s (s.addTest c test) := by
  unfold addTest
  split
  · simp only
    split
    · next h => exact ⟨rfl, rfl, rfl⟩
    · next k ks h => exact ⟨by rw [h]; rfl, by rw [h]; rfl, rfl⟩
  · exact .refl s

theorem sameBelow_add (part : Part) (s : Scaffold) : SameBelow s (s.add part) := ⟨rfl, rfl, rfl⟩

theorem sameBelow_endParse (s : Scaffold) : SameBelow s (s.endParse header) := by
  unfold endParse
  split
  · exact .refl s
  · exact ⟨rfl, rfl, rfl⟩

/-- What is no start and no end of a scope leaves the open classes, apart from their tests. -/
theorem sameBelow_next (h : bracket? c.call = none) : SameBelow s (s.next header c) := by
  obtain ⟨e, n, fs⟩ := c
  cases e with
  | parseStart => exact sameBelow_add ..
  | parseEnd => exact sameBelow_endParse ..
  | nameSpace name =>
    simp only [next]
    split
    · exact .refl s
    · exact sameBelow_add ..
  | functionDecl f | functionDef f =>
    simp only [next]
    split
    · exact .refl s
    · exact sameBelow_addTest ..
  | constructorDecl | constructorDef => exact sameBelow_addTest ..
  | nameSpaceStart | nameSpaceEnd | classStart | classEnd => cases h
  | _ => exact .refl s

theorem next_nameSpaceStart (h : bracket? c.call = some (.start x)) (hx : x.isClass = false) :
    s.next header c = s := by
  obtain ⟨e, n, fs⟩ := c
  cases e with
  | nameSpaceStart => rfl
  | classStart => cases h; cases hx
  | _ => cases h

theorem next_classStart (h : bracket? c.call = some (.start x)) (hx : x.isClass = true) :
    s.next header c = { s with classes := classOf x :: s.classes } := by
  obtain ⟨e, n, fs⟩ := c
  cases e with
  | nameSpaceStart => cases h; cases hx
  | classStart =>
    cases h
    have htail : (ScopeStack.setAccess .isPublic fs).tail = fs.tail := by
      unfold ScopeStack.setAccess
      split <;> rfl
    simp [classOf, htail, next]
  | _ => cases h

theorem next_nameSpaceEnd (h : bracket? c.call = some (.stop x)) (hx : x.isClass = false) :
    s.next header c = s := by
  obtain ⟨e, n, fs⟩ := c
  cases e with
  | nameSpaceEnd => rfl
  | classEnd => cases h; cases hx
  | _ => cases h

theorem next_classEnd (h : bracket? c.call = some (.stop x)) (hx : x.isClass = true)
    {k : OpenClass} {ks : List OpenClass} (hs : s.classes = k :: ks) (hk : k.suite.name = x.name) :
    (s.next header c).classes = ks ∧ (s.next header c).mismatch = s.mismatch := by
  obtain ⟨e, n, fs⟩ := c
  cases e with
  | nameSpaceEnd => cases h; cases hx
  | classEnd name =>
    cases h
    have hname : k.suite.name = name := hk
    simp only [next, endClass, hs, hname, ne_eq, not_true_eq_false, if_false]
    split <;> exact ⟨rfl, rfl⟩
  | _ => cases h

/-! ## Readings -/

variable {cs ds : List Callback} {u v : List Bracket} {xs : List Shown}

def after (header : String) (s : Scaffold) (cs : List Callback) : Scaffold :=
  cs.foldl (next header) s

theorem after_append (s : Scaffold) (cs ds : List Callback) :
    s.after header (cs ++ ds) = (s.after header cs).after header ds :=
  List.foldl_append

theorem after_cons (s : Scaffold) (c : Callback) (cs : List Callback) :
    s.after header (c :: cs) = (s.next header c).after header cs :=
  rfl

theorem sameBelow_after (h : bracketsOf cs = []) : SameBelow s (s.after header cs) := by
  induction cs generalizing s with
  | nil => exact .refl s
  | cons c cs ih =>
    have hnone := List.filterMap_eq_nil_iff.mp h
    exact (sameBelow_next header (hnone c List.mem_cons_self)).trans
      (ih (List.filterMap_eq_nil_iff.mpr fun d hd => hnone d (List.mem_cons_of_mem c hd)))

/-- A scope inside of which the open classes are left leaves them itself. -/
theorem sameBelow_scope (hd : bracket? d.call = some (.start x))
    (hc : bracket? c.call = some (.stop x)) (h : SameBelow (s.next header d) t) :
    SameBelow s (t.next header c) := by
  cases hx : x.isClass with
  | false =>
    rw [next_nameSpaceStart header hd hx] at h
    rwa [next_nameSpaceEnd header hc hx]
  | true =>
    rw [next_classStart header hd hx] at h
    obtain ⟨k, hk, hsame⟩ := h.exists_cons rfl
    obtain ⟨hleft, hm⟩ := next_classEnd header hc hx hk
      (congrArg (·.suite.name) hsame)
    exact ⟨by rw [hleft], by rw [hleft], hm.trans h.mismatch⟩

/-- A well-nested word of brackets leaves the open classes, apart from the tests of the one on
top. -/
theorem sameBelow_of_wellNested (h : WellNested u) (hcs : bracketsOf cs = u) :
    SameBelow s (s.after header cs) := by
  induction h generalizing cs s with
  | nil => exact sameBelow_after header hcs
  | @wrap x u v _ _ ihu ihv =>
    obtain ⟨as, d, mid, c, bs, rfl, has, hd, hmid, hc, hbs⟩ := exists_scope_of_bracketsOf hcs
    rw [after_append, after_cons, after_append, after_cons]
    exact (sameBelow_after header has).trans
      ((sameBelow_scope header hd hc (ihu hmid)).trans (ihv hbs))

/-- While a well-nested word goes on, the class that was on top stays, with all below it. -/
theorem keeps_of_wellNested (h : WellNested u) (hcs : bracketsOf cs = u) {k : OpenClass}
    {ks : List OpenClass} (hs : s.classes = k :: ks) (hds : ds <+: cs) :
    ∃ inner j, (s.after header ds).classes = inner ++ j :: ks ∧ j.untested = k.untested := by
  induction h generalizing cs ds s k ks with
  | nil =>
    have hnone : bracketsOf ds = [] := List.prefix_nil.mp (hcs ▸ hds.filterMap _)
    obtain ⟨j, hj, hsame⟩ := (sameBelow_after header hnone).exists_cons hs
    exact ⟨[], j, hj, hsame⟩
  | @wrap x u v hu _ ihu ihv =>
    obtain ⟨as, d, mid, c, bs, rfl, has, hd, hmid, hc, hbs⟩ := exists_scope_of_bracketsOf hcs
    have hbefore := sameBelow_after (s := s) header has
    rcases prefix_append_cons hds with hds | ⟨es, rfl, hes⟩
    · -- The scope has not started.
      have hnone : bracketsOf ds = [] := List.prefix_nil.mp (has ▸ hds.filterMap _)
      obtain ⟨j, hj, hsame⟩ := (sameBelow_after header hnone).exists_cons hs
      exact ⟨[], j, hj, hsame⟩
    · obtain ⟨j, hj, hsame⟩ := hbefore.exists_cons hs
      rw [after_append, after_cons]
      rcases prefix_append_cons hes with hes | ⟨fs, rfl, hfs⟩
      · -- It goes on.
        cases hx : x.isClass with
        | false =>
          rw [next_nameSpaceStart header hd hx]
          obtain ⟨inner, i, hi, hisame⟩ := ihu hmid hj hes
          exact ⟨inner, i, hi, hisame.trans hsame⟩
        | true =>
          rw [next_classStart header hd hx]
          obtain ⟨inner, i, hi, -⟩ := ihu
            (s := { s.after header as with classes := classOf x :: (s.after header as).classes })
            hmid rfl hes
          exact ⟨inner ++ [i], j, by rw [hi, hj]; simp, hsame⟩
      · -- It has ended.
        rw [after_append, after_cons]
        obtain ⟨i, hi, hisame⟩ :=
          (sameBelow_scope header hd hc (sameBelow_of_wellNested header hu hmid)).exists_cons hj
        obtain ⟨inner, k', hk', hksame⟩ := ihv hbs hi hfs
        exact ⟨inner, k', hk', hksame.trans (hisame.trans hsame)⟩

/-- The starts without an end leave their classes on top of those that were open before. -/
theorem classes_of_unclosed (h : Unclosed xs u) (hcs : bracketsOf cs = u) :
    (s.after header cs).classes.map OpenClass.untested =
        (xs.filter (·.isClass)).map classOf ++ s.classes.map OpenClass.untested ∧
      (s.after header cs).mismatch = s.mismatch := by
  induction h generalizing cs with
  | nil hu =>
    have hsame := sameBelow_of_wellNested (s := s) header hu hcs
    exact ⟨hsame.classes, hsame.mismatch⟩
  | @cons x xs u v _ hv ih =>
    obtain ⟨as, d, bs, rfl, has, hd, hbs⟩ := exists_of_bracketsOf hcs
    obtain ⟨hclasses, hmismatch⟩ := ih has
    rw [after_append, after_cons]
    have hsame := sameBelow_of_wellNested (s := (s.after header as).next header d) header hv hbs
    rw [hsame.classes, hsame.mismatch]
    cases hx : x.isClass with
    | false =>
      rw [next_nameSpaceStart header hd hx]
      simpa [hx] using ⟨hclasses, hmismatch⟩
    | true =>
      rw [next_classStart header hd hx]
      simpa [hx, hclasses, OpenClass.untested, classOf] using hmismatch

/-- The class that `d` pushes when it is told of after `past` stays while it is told of `mid`, with
all below it, and is on top in the end. Tests are not told apart. -/
structure Meets (past : List Callback) (name : String) (d : Callback) (mid : List Callback) :
    Prop where
  pushed : (ofCallbacks header (past ++ [d])).classes =
    ⟨⟨name, []⟩, ScopeStack.isPublic d.scopes.tail⟩ :: (ofCallbacks header past).classes
  stays : ∀ ds, ds <+: mid → ∃ inner k,
    (ofCallbacks header (past ++ d :: ds)).classes =
      inner ++ k :: (ofCallbacks header past).classes ∧
    k.untested = ⟨⟨name, []⟩, ScopeStack.isPublic d.scopes.tail⟩
  onTop : ∃ k, (ofCallbacks header (past ++ d :: mid)).classes =
      k :: (ofCallbacks header past).classes ∧
    k.untested = ⟨⟨name, []⟩, ScopeStack.isPublic d.scopes.tail⟩

theorem ofCallbacks_append (cs ds : List Callback) :
    ofCallbacks header (cs ++ ds) =
      (ofCallbacks header cs).after (Skeleton.includeName header) ds :=
  List.foldl_append

/-- What lies between the start of a class and its end leaves the class on top. -/
theorem meets_of_wellNested {past mid : List Callback} {name : String}
    (hd : d.event = .classStart name) (h : WellNested (bracketsOf mid)) :
    Meets header past name d mid := by
  have hpushed : (ofCallbacks header (past ++ [d])).classes =
      ⟨⟨name, []⟩, ScopeStack.isPublic d.scopes.tail⟩ :: (ofCallbacks header past).classes := by
    rw [ofCallbacks_append, after_cons, next, hd]
    rfl
  refine ⟨hpushed, fun ds hds => ?_, ?_⟩
  · rw [← List.singleton_append, ← List.append_assoc, ofCallbacks_append]
    exact keeps_of_wellNested _ h rfl hpushed hds
  · rw [← List.singleton_append, ← List.append_assoc, ofCallbacks_append]
    exact (sameBelow_of_wellNested _ h rfl).exists_cons hpushed

end Scaffold

/-! ## The scopes of a reading and its callbacks -/

theorem calls_of_callbacks (r : Reading) :
    r.calls = (structural r.callbacks).map Callback.call := by
  rw [Reading.calls, calls_eq_structural, ← callbacks_eq]

/-- What has been reported so far nests, but for the starts of the opened scopes. -/
theorem unclosed_of_front {source : String} {before after : List Callback}
    (h : (parse source).callbacks = before ++ after) :
    ∃ xs, Unclosed xs (bracketsOf before) := by
  obtain ⟨fs, hm, -⟩ := parse_moves source
  rw [calls_of_callbacks, h, structural_append, List.map_append] at hm
  obtain ⟨hs, hm⟩ := moves_front hm
  have hu := unclosed_moves hm (Unclosed.nil WellNested.nil)
  rw [List.nil_append, ← bracketsOf_eq] at hu
  exact ⟨_, hu⟩

/-- A construct or brace is reported by one move. -/
theorem exists_move_of_split {source : String} {before after : List Callback} {c : Callback}
    (h : (parse source).callbacks = before ++ c :: after) (hk : c.event.isStructural = true) :
    ∃ fs gs, Unclosed (scopesMarked true fs) (bracketsOf before) ∧ Move fs [c.call] gs := by
  obtain ⟨fs, hm, -⟩ := parse_moves source
  have hc : structural (c :: after) = c :: structural after := List.filter_cons_of_pos hk
  rw [calls_of_callbacks, h, structural_append, hc, List.map_append, List.map_cons] at hm
  obtain ⟨hs, hs', hbefore, hmove, -⟩ := moves_split hm
  have hu := unclosed_moves hbefore (Unclosed.nil WellNested.nil)
  rw [List.nil_append, ← bracketsOf_eq] at hu
  exact ⟨hs, hs', hu, hmove⟩

theorem exists_stop_of_classEnd {c : Callback} {name : String} (h : c.event = .classEnd name) :
    ∃ x, bracket? c.call = some (.stop x) ∧ x.isClass = true ∧ x.name = name := by
  obtain ⟨e, n, fs⟩ := c
  cases h
  exact ⟨_, rfl, rfl, rfl⟩

theorem classStart_of_bracket? {c : Callback} {x : Shown} (h : bracket? c.call = some (.start x))
    (hx : x.isClass = true) : c.event = .classStart x.name := by
  obtain ⟨e, n, fs⟩ := c
  cases e with
  | nameSpaceStart => cases h; cases hx
  | classStart => cases h; rfl
  | _ => cases h

theorem names_scopesMarked (fs : ScopeStack) :
    ((scopesMarked true fs).filter (·.isClass)).map (·.name) =
      (fs.classes.filter (·.opened)).map (·.name) := by
  induction fs with
  | nil => rfl
  | cons f fs ih =>
    cases f with
    | classBody c =>
      cases hc : c.opened <;>
        simpa [scopesMarked, Frame.isOpened, shown?, ScopeStack.classes, Frame.class?, hc] using ih
    | nameSpace name opened =>
      cases opened <;>
        simpa [scopesMarked, Frame.isOpened, shown?, ScopeStack.classes, List.filterMap_cons,
          Frame.class?] using ih
    | functionBody | linkage | skip =>
      simpa [scopesMarked, shown?, ScopeStack.classes, List.filterMap_cons, Frame.class?] using ih

/-- The end `c` is that of the start `d`: they show the same scope, and what is reported between
them nests. -/
structure EndsStart (d : Callback) (mid : List Callback) (c : Callback) : Prop where
  shown : ∃ x, bracket? d.call = some (.start x) ∧ bracket? c.call = some (.stop x)
  nested : WellNested (bracketsOf mid)

/-- Every end of a class is that of a start of the class. -/
theorem exists_start_of_classEnd {source : String} {before after : List Callback} {c : Callback}
    {name : String} (h : (parse source).callbacks = before ++ c :: after)
    (hc : c.event = .classEnd name) :
    ∃ first d mid, before = first ++ d :: mid ∧ d.event = .classStart name ∧ EndsStart d mid c := by
  obtain ⟨fs, gs, hu, hmove⟩ := exists_move_of_split h (by rw [hc]; rfl)
  obtain ⟨x, hx, hclass, hname⟩ := exists_stop_of_classEnd hc
  have hscopes : scopesMarked true fs = x :: scopesMarked true gs := by
    rcases brackets_move hmove with ⟨hb, -⟩ | ⟨y, hb, -⟩ | ⟨y, hb, hscopes⟩ <;>
      simp [brackets, hx] at hb
    rw [hscopes, hb]
  rw [hscopes] at hu
  -- The last start that is unclosed is that of the scope which ends.
  generalize hw : bracketsOf before = w at hu
  cases hu with
  | @cons _ _ u v _ hv =>
    obtain ⟨first, d, mid, rfl, -, hd, hmid⟩ := exists_of_bracketsOf hw
    rw [← hmid] at hv
    have hstart := classStart_of_bracket? hd hclass
    rw [hname] at hstart
    exact ⟨first, d, mid, rfl, hstart, ⟨x, hd, hx⟩, hv⟩

/-- What has been reported before a callback nests, but for some starts; before a construct, the
classes among these are the opened ones around it. -/
theorem exists_unclosed_of_split {source : String} {before after : List Callback} {c : Callback}
    (h : (parse source).callbacks = before ++ c :: after) :
    ∃ xs, Unclosed xs (bracketsOf before) ∧ (c.event.isConstruct = true →
      (xs.filter (·.isClass)).map (·.name) =
        (c.scopes.classes.filter (·.opened)).map (·.name)) := by
  by_cases hk : c.event.isConstruct = true
  · obtain ⟨fs, gs, hu, hmove⟩ := exists_move_of_split h (Event.isStructural_of_isConstruct hk)
    have hscopes : c.scopes = fs := hmove.scopes_of_isConstruct List.mem_cons_self hk
    exact ⟨_, hu, fun _ => hscopes ▸ names_scopesMarked _⟩
  · obtain ⟨xs, hu⟩ := unclosed_of_front h
    exact ⟨xs, hu, fun hk' => absurd hk' hk⟩

/-- The callbacks of some headers that are read one after the other. -/
def callbacksOfAll (sources : List String) : List Callback :=
  sources.flatMap fun source => (parse source).callbacks

open Scaffold

theorem mismatch_after_all (header : String) (sources : List String) (s : Scaffold) :
    (s.after header (callbacksOfAll sources)).mismatch = s.mismatch := by
  induction sources generalizing s with
  | nil => rfl
  | cons source sources ih =>
    obtain ⟨xs, hu⟩ := unclosed_of_front (List.append_nil (parse source).callbacks).symm
    rw [callbacksOfAll, List.flatMap_cons, Scaffold.after_append]
    exact (ih _).trans (classes_of_unclosed header hu rfl).2

/-- However many headers are read with one scaffold, whether they are read to their end or not, it
meets no mismatch. Every end of a class finds the class of its own start on top. At any time the
classes of earlier headers lie below those of the present one, and where a construct is reported,
the latter have the names of the opened classes around it, in order. -/
theorem scaffold_never_mismatches (header : String) (sources : List String) :
    (∃ text, (ofCallbacks header (callbacksOfAll sources)).finish = .ok text) ∧
    ∀ earlier source later, sources = earlier ++ source :: later →
      ∀ before c after, (parse source).callbacks = before ++ c :: after →
        (∀ name, c.event = .classEnd name →
          ∃ first d mid, before = first ++ d :: mid ∧ d.event = .classStart name ∧
            EndsStart d mid c ∧ Meets header (callbacksOfAll earlier ++ first) name d mid) ∧
        ∃ pushed kept,
          (ofCallbacks header (callbacksOfAll earlier ++ before)).classes =
            pushed ++ kept ∧
          kept.map OpenClass.untested =
            (ofCallbacks header (callbacksOfAll earlier)).classes.map
              OpenClass.untested ∧
          (c.event.isConstruct = true →
            pushed.map (·.suite.name) = (c.scopes.classes.filter (·.opened)).map (·.name)) := by
  refine ⟨?_, fun earlier source later _ before c after h => ⟨fun name hc => ?_, ?_⟩⟩
  · have hnone : (ofCallbacks header (callbacksOfAll sources)).mismatch = none :=
      mismatch_after_all _ sources Scaffold.start
    exact ⟨_, by rw [finish, hnone]⟩
  · obtain ⟨first, d, mid, hbefore, hstart, hends⟩ := exists_start_of_classEnd h hc
    exact ⟨first, d, mid, hbefore, hstart, hends, meets_of_wellNested header hstart hends.nested⟩
  · obtain ⟨xs, hu, hnames⟩ := exists_unclosed_of_split h
    have hclasses := (classes_of_unclosed (s := ofCallbacks header (callbacksOfAll earlier))
      (Skeleton.includeName header) hu rfl).1
    obtain ⟨pushed, kept, heq, hpushed, hkept⟩ := List.map_eq_append_iff.mp hclasses
    refine ⟨pushed, kept, by rw [ofCallbacks_append, heq], hkept, fun hk => ?_⟩
    have hmap : pushed.map (·.suite.name) = (pushed.map OpenClass.untested).map (·.suite.name) := by
      rw [List.map_map]
      rfl
    rw [hmap, hpushed, List.map_map, ← hnames hk]
    rfl

end HeaderOutline
