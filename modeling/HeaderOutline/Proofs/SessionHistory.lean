import HeaderOutline.Session
import Mathlib.Data.UInt
/-!
# The history of a session

A session is told by the requests that have been made of it. The listeners are those that were
added and not removed since, each under the handle of its addition, in the order of the additions;
the tracer counts as the first of them. A handle is used once, so a removal takes the one listener
that the handle was given to, the first time, and nothing later. The counts are those of the headers
that were read to their end and not followed by a reset.

What a listener hears of a header is what it would hear alone in a session of its own: neither the
other listeners nor the headers before it make a difference.

Results:
* `listeners_afterAll`, `metrics_afterAll`: the listeners and the counts after some requests.
* `heard_of_fresh`: what is heard under a handle.
* `session_history`: sessions after any requests.
-/
namespace HeaderOutline

inductive Request where
  | add (listener : Listener)
  | remove (handle : Nat)
  | read (source : String)
  | reset
  deriving DecidableEq, Repr

namespace Session

variable {s : Session} {handle : Nat}

def after (s : Session) : Request → Session
  | .add listener => s.add listener
  | .remove handle => s.remove handle
  | .read source => s.read source
  | .reset => s.resetMetrics

def afterAll (rs : List Request) (s : Session) : Session :=
  rs.foldl after s

theorem afterAll_cons (r : Request) (rs : List Request) (s : Session) :
    s.afterAll (r :: rs) = (s.after r).afterAll rs :=
  rfl

theorem afterAll_append (us vs : List Request) (s : Session) :
    s.afterAll (us ++ vs) = (s.afterAll us).afterAll vs :=
  List.foldl_append

/-- Reading a header changes nothing but the metrics. -/
theorem record_eq (r : Reading) (s : Session) :
    s.record r = { s with metrics := (s.record r).metrics } := by
  unfold record
  split <;> rfl

/-! ## Handles -/

/-- The handles that the additions among some requests return, in order. -/
def handles (s : Session) : List Request → List Nat
  | [] => []
  | .add listener :: rs => s.nextHandle :: (s.add listener).handles rs
  | r :: rs => (s.after r).handles rs

/-- No request but an addition changes the next handle. -/
theorem nextHandle_after {r : Request} (h : ∀ listener, r ≠ .add listener) :
    (s.after r).nextHandle = s.nextHandle := by
  cases r with
  | add listener => exact absurd rfl (h listener)
  | remove | reset => rfl
  | read source =>
    have he := congrArg nextHandle (record_eq (parse source) s)
    exact he

theorem handles_eq (s : Session) (rs : List Request) :
    s.handles rs = List.range' s.nextHandle (s.handles rs).length := by
  induction rs generalizing s with
  | nil => rfl
  | cons r rs ih =>
    cases r with
    | add listener =>
      have h := ih (s.add listener)
      rw [show (s.add listener).nextHandle = s.nextHandle + 1 from rfl] at h
      rw [handles, List.length_cons, List.range'_succ, ← h]
    | remove _ | reset => exact ih _
    | read source =>
      have h := ih (s.after (.read source))
      rwa [nextHandle_after (by simp)] at h

theorem length_handles_le (s : Session) (rs : List Request) :
    (s.handles rs).length ≤ rs.length := by
  induction rs generalizing s with
  | nil => exact Nat.le_refl _
  | cons r rs ih =>
    cases r with
    | add listener => exact Nat.succ_le_succ (ih _)
    | remove | read | reset => exact Nat.le_succ_of_le (ih _)

/-- A handle is less than the next one by the requests at most. -/
theorem lt_of_mem_handles {rs : List Request} (h : handle ∈ s.handles rs) :
    handle < s.nextHandle + rs.length := by
  rw [handles_eq, List.mem_range'_1] at h
  have := length_handles_le s rs
  omega

theorem nodup_handles (s : Session) (rs : List Request) : (s.handles rs).Nodup := by
  rw [handles_eq]
  exact List.nodup_range'

theorem fresh_after (h : s.Fresh) (r : Request) : (s.after r).Fresh := by
  cases r with
  | add listener => exact fresh_add h listener
  | remove handle => exact fresh_remove h handle
  | reset => exact h
  | read source =>
    show (s.record (parse source)).Fresh
    rw [record_eq]
    exact h

theorem fresh_afterAll (h : s.Fresh) (rs : List Request) : (s.afterAll rs).Fresh := by
  induction rs generalizing s with
  | nil => exact h
  | cons r rs ih => exact ih (fresh_after h r)

/-! ## Listeners -/

/-- The requests that a session begins with: a tracer is added before anyone else. -/
def opening (config : Config) : List Request :=
  if config.installTracer then [.add .tracer] else []

/-- A session in which nobody listens. -/
def silent (config : Config) : Session :=
  ⟨config, [], 0, .zero⟩

theorem start_eq (config : Config) : start config = (silent config).afterAll (opening config) := by
  unfold start opening
  split <;> rfl

theorem nextHandle_start_le (config : Config) : (start config).nextHandle ≤ 1 := by
  unfold start
  split <;> simp [add]

theorem fresh_start (config : Config) : (start config).Fresh := by
  rw [start_eq]
  have hsilent : (silent config).Fresh :=
    ⟨List.nodup_nil, fun _ hr => absurd hr List.not_mem_nil⟩
  exact fresh_afterAll hsilent _

/-- The additions among some requests that no later one takes back, each with its handle; `n` is the
handle of the first addition. -/
def kept (n : Nat) : List Request → List Registration
  | [] => []
  | .add listener :: rs => (if .remove n ∈ rs then [] else [⟨n, listener⟩]) ++ kept (n + 1) rs
  | .remove _ :: rs | .read _ :: rs | .reset :: rs => kept n rs

/-- What was registered before is kept unless it is removed, and what is added comes behind it. -/
theorem listeners_afterAll (rs : List Request) (s : Session) :
    (s.afterAll rs).listeners =
      s.listeners.filter (fun r => .remove r.handle ∉ rs) ++ kept s.nextHandle rs := by
  induction rs generalizing s with
  | nil =>
    have h : s.listeners.filter (fun r => .remove r.handle ∉ ([] : List Request)) = s.listeners :=
      List.filter_eq_self.mpr fun _ _ => decide_eq_true List.not_mem_nil
    rw [h, kept, List.append_nil]
    rfl
  | cons r rs ih =>
    rw [afterAll_cons, ih]
    cases r with
    | add listener =>
      simp only [after, add, kept, List.filter_append, List.mem_cons, reduceCtorEq, false_or,
        List.append_assoc]
      congr 2
      split <;> simp_all
    | remove handle =>
      simp only [after, remove, kept, List.filter_filter, List.mem_cons, Request.remove.injEq]
      congr 2
      funext r
      by_cases h : r.handle = handle <;> simp [h]
    | read source =>
      have h := record_eq (parse source) s
      simp only [after, read, kept, List.mem_cons, reduceCtorEq, false_or]
      rw [h]
    | reset => simp [after, resetMetrics, kept]

theorem listeners_of_start (config : Config) (rs : List Request) :
    ((start config).afterAll rs).listeners = kept 0 (opening config ++ rs) := by
  rw [start_eq, ← afterAll_append, listeners_afterAll]
  rfl

theorem le_of_mem_kept {n : Nat} {rs : List Request} {r : Registration} (h : r ∈ kept n rs) :
    n ≤ r.handle := by
  fun_induction kept n rs with
  | case1 => cases h
  | case2 n listener rs ih =>
    rcases List.mem_append.mp h with h | h
    · split at h
      · cases h
      · exact Nat.le_of_eq (congrArg Registration.handle (List.mem_singleton.mp h)).symm
    · exact Nat.le_of_succ_le (ih h)
  | case3 _ _ _ ih | case4 _ _ _ ih | case5 _ _ ih => exact ih h

/-! ## Removal -/

def listener? (handle : Nat) (s : Session) : Option Listener :=
  (s.listeners.find? (·.handle == handle)).map (·.listener)

theorem has_eq (handle : Nat) (s : Session) : s.has handle = (s.listener? handle).isSome := by
  rw [listener?, Option.isSome_map, List.isSome_find?, has]

/-- A listener is found under the handle of its addition until that is removed. -/
theorem listener?_of_added (hs : s.Fresh) (listener : Listener) (rs : List Request) :
    ((s.add listener).afterAll rs).listener? s.nextHandle =
      if .remove s.nextHandle ∈ rs then none else some listener := by
  have hold : (s.listeners.filter fun r => .remove r.handle ∉ rs).find?
      (·.handle == s.nextHandle) = none := by
    refine List.find?_eq_none.mpr fun r hr => ?_
    simpa using Nat.ne_of_lt (hs.2 r (List.mem_filter.mp hr).1)
  have hnew : (kept (s.nextHandle + 1) rs).find? (·.handle == s.nextHandle) = none := by
    refine List.find?_eq_none.mpr fun r hr => ?_
    simpa using Nat.ne_of_gt (le_of_mem_kept hr)
  rw [listener?, listeners_afterAll]
  simp only [add, List.filter_append, List.find?_append, hold, hnew, Option.none_or, Option.or_none]
  by_cases h : .remove s.nextHandle ∈ rs <;> simp [h]

/-- Behind the registration of a handle, no other has it. -/
theorem ne_of_nodup {r : Registration} {rs : List Registration}
    (hn : ((r :: rs).map (·.handle)).Nodup) : ∀ x ∈ rs, x.handle ≠ r.handle := by
  intro x hx he
  rw [List.map_cons, List.nodup_cons] at hn
  exact hn.1 (he ▸ List.mem_map_of_mem hx)

/-- A removal takes the first listener of the handle, and the others stay in their order. -/
theorem listeners_remove (hs : s.Fresh) (handle : Nat) :
    (s.remove handle).listeners = s.listeners.eraseP (·.handle == handle) := by
  have hn := hs.1
  show s.listeners.filter (·.handle != handle) = _
  generalize s.listeners = rs at hn
  induction rs with
  | nil => rfl
  | cons r rs ih =>
    have ih := ih (List.nodup_cons.mp hn).2
    rw [List.eraseP_cons, List.filter_cons]
    by_cases h : r.handle = handle
    · have hrest : ∀ x ∈ rs, (x.handle != handle) = true := fun x hx =>
        bne_iff_ne.mpr (h ▸ ne_of_nodup hn x hx)
      simp [h, List.filter_eq_self.mpr hrest]
    · have hr : (r.handle == handle) = false := beq_eq_false_iff_ne.mpr h
      rw [hr, if_pos (bne_iff_ne.mpr h), ih]
      rfl

/-! ## What is heard -/

/-- Who is told what, in order, when these callbacks are made. -/
def deliveries (cs : List Callback) (s : Session) : List (Registration × Callback) :=
  cs.flatMap fun c => s.listeners.map (·, c)

theorem calls_eq (cs : List Callback) (s : Session) :
    s.calls cs = (s.deliveries cs).map fun d => (d.1.listener, d.2) := by
  simp [calls, deliveries, List.map_flatMap, Function.comp_def]

/-- What is told under a handle, of some deliveries. -/
def toldTo (handle : Nat) (ds : List (Registration × Callback)) : List Callback :=
  (ds.filter (·.1.handle == handle)).map (·.2)

/-- What the listener of a handle is told while a header is read. -/
def heard (handle : Nat) (source : String) (s : Session) : List Callback :=
  toldTo handle (s.deliveries (parse source).callbacks)

/-- A listener is told of each callback once. -/
theorem heard_of_fresh (hs : s.Fresh) (handle : Nat) (source : String) :
    s.heard handle source = if s.has handle then (parse source).callbacks else [] := by
  have hone : ∀ c : Callback, toldTo handle (s.listeners.map (·, c)) =
      if s.has handle then [c] else [] := by
    intro c
    have hn := hs.1
    unfold has toldTo
    generalize s.listeners = rs at hn
    induction rs with
    | nil => rfl
    | cons r rs ih =>
      have ih := ih (List.nodup_cons.mp hn).2
      by_cases h : r.handle = handle
      · have hrest : rs.any (·.handle == handle) = false :=
          List.any_eq_false.mpr fun x hx he => ne_of_nodup hn x hx ((beq_iff_eq.mp he).trans h.symm)
        rw [hrest] at ih
        simp [h, ih]
      · simp [h, ih]
  rw [heard, deliveries, toldTo, List.filter_flatMap, List.map_flatMap]
  show (parse source).callbacks.flatMap (fun c => toldTo handle (s.listeners.map (·, c))) = _
  simp only [hone]
  split <;> simp

/-! ## Metrics -/

/-- The headers among some requests that are read behind the last reset. -/
def readSince : List Request → List String
  | [] => []
  | .read source :: rs => (if .reset ∈ rs then [] else [source]) ++ readSince rs
  | .add _ :: rs | .remove _ :: rs | .reset :: rs => readSince rs

/-- The header is read to its end. -/
def succeeds (source : String) : Bool :=
  (parse source).result.isOk

/-- What a session counts that reads this header and no other. -/
def freshCounts (source : String) : Metrics :=
  ((start .quiet).read source).metrics

theorem exists_result_of_succeeds {source : String} (h : succeeds source = true) :
    ∃ f, (parse source).result = .ok f := by
  unfold succeeds at h
  cases hr : (parse source).result with
  | error e => rw [hr] at h; cases h
  | ok f => exact ⟨f, rfl⟩

theorem record_of_fails {source : String} (h : succeeds source = false) (s : Session) :
    s.read source = s := by
  unfold succeeds at h
  unfold read record
  cases hr : (parse source).result with
  | error e => rfl
  | ok f => rw [hr] at h; cases h

end Session

/-- The counts of the metrics, apart from the time. -/
def Metrics.counters : List (Metrics → UInt64) :=
  [filesParsed, linesRead, fragmentsDispatched, constructsRecognized, lineMerges,
    fragmentsDiscarded]

theorem Metrics.counters_spec {f : Metrics → UInt64} (hf : f ∈ counters) :
    f .zero = 0 ∧ ∀ a b, f (a.merge b) = f a + f b := by
  simp only [counters, List.mem_cons, List.not_mem_nil, or_false] at hf
  rcases hf with rfl | rfl | rfl | rfl | rfl | rfl <;> exact ⟨rfl, fun _ _ => rfl⟩

theorem Metrics.zero_merge (m : Metrics) : Metrics.merge .zero m = m := by
  simp [merge, zero]

namespace Session

theorem metrics_of_result {source : String} {f : Finished} (h : (parse source).result = .ok f)
    (s : Session) : (s.read source).metrics = s.metrics.merge (.ofFinished f) := by
  simp only [read, record, h]

/-- A header that is read to its end counts alone what its reading has counted. -/
theorem freshCounts_of_result {source : String} {f : Finished}
    (h : (parse source).result = .ok f) : freshCounts source = .ofFinished f :=
  (metrics_of_result h _).trans (Metrics.zero_merge _)

/-- A header adds the counts that it has alone. -/
theorem metrics_read {f : Metrics → UInt64} (hf : f ∈ Metrics.counters) (source : String)
    (s : Session) :
    f (s.read source).metrics =
      f s.metrics + (if succeeds source then f (freshCounts source) else 0) := by
  cases hs : succeeds source with
  | false => rw [record_of_fails hs]; simp
  | true =>
    obtain ⟨r, hr⟩ := exists_result_of_succeeds hs
    rw [metrics_of_result hr, (Metrics.counters_spec hf).2, if_pos rfl, freshCounts_of_result hr]

theorem metrics_afterAll {f : Metrics → UInt64} (hf : f ∈ Metrics.counters) (rs : List Request)
    (s : Session) :
    f (s.afterAll rs).metrics = (if .reset ∈ rs then 0 else f s.metrics) +
      (((readSince rs).filter succeeds).map (f ∘ freshCounts)).sum := by
  induction rs generalizing s with
  | nil => simp [afterAll, readSince]
  | cons r rs ih =>
    rw [afterAll_cons, ih]
    cases r with
    | add | remove => simp [after, add, remove, readSince]
    | reset => simp [after, resetMetrics, readSince, (Metrics.counters_spec hf).1]
    | read source =>
      simp only [after, metrics_read hf, readSince, List.mem_cons, reduceCtorEq, false_or]
      by_cases hr : .reset ∈ rs
      · simp [hr]
      · cases hs : succeeds source <;> simp [hr, hs, UInt64.add_assoc]

/-! ## Histories -/

/-- What is true of a session after the requests `rs`. -/
structure Orderly (config : Config) (rs : List Request) : Prop where
  /-- No two additions return the same handle. -/
  handles_distinct : ((start config).handles rs).Nodup
  /-- A word of 64 bits holds every handle as long as it can count the requests. -/
  handles_fit : rs.length < 2 ^ 64 → ∀ handle ∈ (start config).handles rs, handle < 2 ^ 64
  /-- Who listens: the additions that have not been taken back, in their order. -/
  listening : ((start config).afterAll rs).listeners = kept 0 (opening config ++ rs)
  /-- The tracer comes first, under a handle that nobody is given. -/
  tracer_first : config.installTracer = true → 0 ∉ (start config).handles rs ∧
    (.remove 0 ∉ rs → ((start config).afterAll rs).listeners.head? = some ⟨0, .tracer⟩)
  /-- The handle of an addition gives its listener back until it is removed, and nothing then. -/
  removed_once : ∀ us listener vs, rs = us ++ .add listener :: vs →
    ((start config).afterAll rs).listener? ((start config).afterAll us).nextHandle =
      if .remove ((start config).afterAll us).nextHandle ∈ vs then none else some listener
  /-- A removal succeeds when there is something to give back, and takes one listener then. -/
  removes_one : ∀ handle,
    ((start config).afterAll rs).has handle =
      (((start config).afterAll rs).listener? handle).isSome ∧
    ((start config).afterAll (rs ++ [.remove handle])).listeners =
      ((start config).afterAll rs).listeners.eraseP (·.handle == handle)
  /-- Every callback of a header goes to all who listen, one after the other. -/
  told : ∀ source, ((start config).afterAll rs).calls (parse source).callbacks =
    (parse source).callbacks.flatMap fun c =>
      (kept 0 (opening config ++ rs)).map fun r => (r.listener, c)
  /-- The calls are what is delivered under the handles. -/
  delivered : ∀ cs, ((start config).afterAll rs).calls cs =
    (((start config).afterAll rs).deliveries cs).map fun d => (d.1.listener, d.2)
  /-- A listener hears what it would hear alone in a new session. -/
  heard_alone : ∀ source handle listener,
    ((start config).afterAll rs).listener? handle = some listener →
      ((start config).afterAll rs).heard handle source =
        ((start .quiet).add listener).heard (start .quiet).nextHandle source
  /-- Nothing is heard under any other handle. -/
  not_heard : ∀ source handle, ((start config).afterAll rs).listener? handle = none →
    ((start config).afterAll rs).heard handle source = []
  /-- The counts are those of the headers that succeeded, each as it counts alone. -/
  counts : ∀ f ∈ Metrics.counters, f ((start config).afterAll rs).metrics =
    (((readSince rs).filter succeeds).map (f ∘ freshCounts)).sum
  /-- A header alone counts what its reading has counted. -/
  counts_alone : ∀ source f, (parse source).result = .ok f → freshCounts source = .ofFinished f
  /-- A header that fails leaves the session as it was. -/
  failed : ∀ source, succeeds source = false →
    (start config).afterAll (rs ++ [.read source]) = (start config).afterAll rs

/-- A new session has one listener, under its first handle. -/
theorem heard_new (listener : Listener) (source : String) :
    ((start .quiet).add listener).heard (start .quiet).nextHandle source =
      (parse source).callbacks :=
  heard_of_fresh (fresh_add (fresh_start .quiet) listener) _ source

theorem tracer_first {config : Config} (h : config.installTracer = true) (rs : List Request) :
    0 ∉ (start config).handles rs ∧ (.remove 0 ∉ rs →
      ((start config).afterAll rs).listeners.head? = some ⟨0, .tracer⟩) := by
  have hnext : (start config).nextHandle = 1 := by simp [start, h, add]
  constructor
  · rw [handles_eq, hnext]
    simp [List.mem_range'_1]
  · intro hr
    rw [listeners_of_start, opening, if_pos h]
    simp [kept, hr]

/-- Sessions keep their registry and their counts in order, whatever is asked of them. -/
theorem session_history (config : Config) (rs : List Request) : Orderly config rs := by
  have hfresh := fresh_afterAll (fresh_start config) rs
  have hheard := heard_of_fresh hfresh
  constructor
  case handles_distinct => exact nodup_handles _ rs
  case handles_fit =>
    intro hlength handle hmem
    have := lt_of_mem_handles hmem
    have := nextHandle_start_le config
    omega
  case listening => exact listeners_of_start config rs
  case tracer_first => exact fun h => tracer_first h rs
  case removed_once =>
    rintro us listener vs rfl
    rw [afterAll_append, afterAll_cons]
    exact listener?_of_added (fresh_afterAll (fresh_start config) us) listener vs
  case removes_one =>
    intro handle
    rw [afterAll_append]
    exact ⟨has_eq handle _, listeners_remove hfresh handle⟩
  case told =>
    intro source
    rw [calls, listeners_of_start]
  case delivered => exact fun cs => calls_eq cs _
  case heard_alone =>
    intro source handle listener hl
    rw [hheard, heard_new, has_eq, hl]
    rfl
  case not_heard =>
    intro source handle hl
    rw [hheard, has_eq, hl]
    rfl
  case counts =>
    intro f hf
    have hzero : f (start config).metrics = 0 := by
      have hm : (start config).metrics = .zero := by unfold start; split <;> rfl
      rw [hm, (Metrics.counters_spec hf).1]
    rw [metrics_afterAll hf, hzero, ite_self, UInt64.zero_add]
  case counts_alone => exact fun source f => freshCounts_of_result
  case failed =>
    intro source hs
    rw [afterAll_append]
    exact record_of_fails hs _

/-- Handle 1 is given back once, and a closing brace alone is no header that counts. -/
example :
    let rs : List Request := [.add (.recorder "a"), .read "int f();", .add (.recorder "b"),
      .remove 1, .remove 1, .read "\x7d"]
    ((start .standard).afterAll rs).listeners = [⟨0, .tracer⟩, ⟨2, .recorder "b"⟩] ∧
      ((start .standard).afterAll rs).metrics.filesParsed = 1 := by
  decide +kernel

end Session

end HeaderOutline
