import HeaderOutline.Config
import HeaderOutline.Metrics
/-!
# Sessions

A session reads one header after another. Listeners are registered under handles, which are never
used twice, and every callback of a reading goes to all of them in the order in which they were
registered. Each reading starts afresh; only the metrics are kept, and a reading that fails adds
nothing to them.

Results: `fresh_add`, `fresh_remove`, handles stay below the next one and distinct.
-/
namespace HeaderOutline

/-- Who is told of callbacks. -/
inductive Listener where
  /-- Writes to the log. -/
  | tracer
  /-- Notes what it is told under a name. -/
  | recorder (tag : String)
  deriving DecidableEq, Repr

structure Registration where
  handle : Nat
  listener : Listener
  deriving DecidableEq, Repr

structure Session where
  config : Config
  listeners : List Registration
  /-- A number without bound, as handles are never used twice. One is taken for each addition, so a
  word of 64 bits holds them for longer than any session lasts. -/
  nextHandle : Nat
  metrics : Metrics
  deriving DecidableEq, Repr

namespace Session

/-- The session with one more listener; its handle is the next one. Mirrors `add_listener`. -/
def add (listener : Listener) (s : Session) : Session :=
  { s with
    listeners := s.listeners ++ [⟨s.nextHandle, listener⟩]
    nextHandle := s.nextHandle + 1 }

def start (config : Config) : Session :=
  let s : Session := ⟨config, [], 0, .zero⟩
  if config.installTracer then s.add .tracer else s

def has (handle : Nat) (s : Session) : Bool :=
  s.listeners.any (·.handle == handle)

/-- Mirrors `remove_listener`. -/
def remove (handle : Nat) (s : Session) : Session :=
  { s with listeners := s.listeners.filter (·.handle != handle) }

/-- Mirrors `reset_metrics`. -/
def resetMetrics (s : Session) : Session :=
  { s with metrics := .zero }

/-- Who is told what, in order, when these callbacks are made. -/
def calls (cs : List Callback) (s : Session) : List (Listener × Callback) :=
  cs.flatMap fun c => s.listeners.map (·.listener, c)

/-- The session after a reading. Mirrors what `parse_source` does with its outcome. -/
def record (r : Reading) (s : Session) : Session :=
  match r.result with
  | .ok f => { s with metrics := s.metrics.merge (.ofFinished f) }
  | .error _ => s

def read (source : String) (s : Session) : Session :=
  s.record (parse source)

/-! ## Handles -/

/-- Handles are distinct and lie below the next one. -/
def Fresh (s : Session) : Prop :=
  (s.listeners.map (·.handle)).Nodup ∧ ∀ r ∈ s.listeners, r.handle < s.nextHandle

theorem fresh_add {s : Session} (h : s.Fresh) (listener : Listener) : (s.add listener).Fresh := by
  obtain ⟨hn, hl⟩ := h
  refine ⟨?_, ?_⟩
  · simp only [add, List.map_append, List.map_cons, List.map_nil, List.nodup_append]
    refine ⟨hn, by simp, ?_⟩
    rintro a ha b hb rfl
    obtain ⟨r, hr, rfl⟩ := List.mem_map.mp ha
    have := hl r hr
    simp only [List.mem_singleton] at hb
    omega
  · intro r hr
    simp only [add, List.mem_append, List.mem_singleton] at hr
    rcases hr with hr | rfl
    · have := hl r hr
      simp only [add]
      omega
    · simp [add]

theorem fresh_remove {s : Session} (h : s.Fresh) (handle : Nat) : (s.remove handle).Fresh := by
  refine ⟨List.Nodup.sublist (List.Sublist.map _ List.filter_sublist) h.1, ?_⟩
  intro r hr
  exact h.2 r (List.mem_filter.mp hr).1

end Session

end HeaderOutline
