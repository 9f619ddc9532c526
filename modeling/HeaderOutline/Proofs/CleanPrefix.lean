import HeaderOutline.Proofs.Conservation
import HeaderOutline.Proofs.Lookahead
import HeaderOutline.Proofs.SourceLines
/-!
# Headers put together

A header that is read to its end with no scope open, no text given up, no macro left open by a
backslash and no comment left open does not bear on what comes behind it: its reading goes on as
that of the second header alone would, under higher line numbers and with the counts so far.

Results:
* `run_renumber`: whole runs under new numbers.
* `step_regroup`: a line that still has to end only ends.
* `parse_append`: the reading of two headers in a row.
-/
namespace HeaderOutline
open Text

/-- The lines that a step leaves keep their numbers; a rest keeps that of its line. -/
theorem Cut.forall_number {p : Nat → Prop} {line : SourceLine} {later left : List SourceLine}
    {text : List Char} (h : Cut line later text left) (hline : p line.number)
    (hlater : ∀ l ∈ later, p l.number) : ∀ l ∈ left, p l.number := by
  cases h with
  | parted n =>
    intro l hl
    unfold requeue at hl
    simp only at hl
    split at hl
    · exact hlater l (List.mem_of_mem_drop hl)
    · rcases List.mem_cons.mp hl with rfl | hl
      · exact hline
      · exact hlater l (List.mem_of_mem_drop hl)
  | joined he =>
    intro l hl
    rcases List.mem_cons.mp hl with rfl | hl
    · exact hline
    · exact hlater l (he ▸ List.mem_cons_of_mem _ hl)

namespace State

variable {s t : State} {line : SourceLine} {later : List SourceLine} {es : List Entry}

/-! ## The line that is being read -/

theorem group_perform (s : State) (k : Construct) : (s.perform k).2.group = s.group := by
  unfold perform
  split <;> try rfl
  · split <;> rfl
  · unfold openBrace
    split
    · rfl
    · split <;> rfl

theorem group_closeBrace {number : Nat} (h : s.closeBrace number = (es, .ok t)) :
    t.group = s.group := by
  unfold closeBrace at h
  simp only at h
  split at h
  · cases h
  · cases h
    rfl

theorem group_readEnum (line : SourceLine) (s : State) : (s.readEnum line).2.group = s.group := by
  unfold readEnum
  simp only
  split <;> rfl

theorem group_unmatched (line : SourceLine) (s : State) :
    (s.unmatched line).2.group = s.group := by
  unfold unmatched
  split <;> rfl

theorem group_dispatch (h : s.dispatch line = (es, .ok t)) : t.group = s.group := by
  rcases dispatch_cases h with ⟨-, hu⟩ | ⟨rule, k, rest, fs, -, -, ha⟩
  · have hg := group_unmatched line s.countDispatched
    rwa [hu] at hg
  · rcases act_cases ha with ⟨-, hr⟩ | ⟨-, _, u, hc, -, rfl⟩ | ⟨-, -, -, rfl⟩
    · have hg := group_readEnum line s.countDispatched
      rwa [hr] at hg
    · exact (group_closeBrace hc :)
    · exact group_perform s.countDispatched k

/-- A step reads its own line, or goes on with a line of the same number. -/
theorem group_step (h : s.step line later = (es, .ok t)) :
    t.group = some line ∨ t.group = s.group ∧ s.group.map (·.number) = some line.number := by
  simp only [step, Prod.mk.injEq] at h
  obtain ⟨-, ht⟩ := h
  rw [group_dispatch (Prod.ext rfl ht)]
  unfold enter
  split
  · next hn => exact .inr ⟨rfl, hn⟩
  · exact .inl rfl

theorem group_isSome_step (h : s.step line later = (es, .ok t)) : t.group.isSome = true := by
  rcases group_step h with hg | ⟨hg, hn⟩
  · rw [hg]; rfl
  · obtain ⟨g, hs, -⟩ := Option.map_eq_some_iff.mp hn
    rw [hg, hs]; rfl

theorem group_isSome_of_reads (h : Reads s es t) (hs : s.group.isSome = true) :
    t.group.isSome = true := by
  induction h with
  | refl => exact hs
  | next _ hst _ ih => exact ih (group_isSome_step hst)

/-! ## Numbers -/

/-- The pending lines and the line that is being read have numbers of the kind. -/
def Numbered (p : Nat → Prop) (s : State) : Prop :=
  (∀ l ∈ s.pending, p l.number) ∧ ∀ g ∈ s.group, p g.number

theorem numbered_step {p : Nat → Prop} (hp : s.pending = line :: later)
    (h : s.step line later = (es, .ok t)) (hs : Numbered p s) : Numbered p t := by
  have hline : p line.number := hs.1 line (hp ▸ List.mem_cons_self)
  have hlater : ∀ l ∈ later, p l.number := fun l hl => hs.1 l (hp ▸ List.mem_cons_of_mem _ hl)
  constructor
  · exact (cut_step h).forall_number hline hlater
  · intro g hg
    rcases group_step h with hl | ⟨hl, -⟩
    · rw [hl] at hg
      exact Option.some.inj hg ▸ hline
    · exact hs.2 g (hl ▸ hg)

theorem numbered_of_reads {p : Nat → Prop} (h : Reads s es t) (hs : Numbered p s) :
    Numbered p t := by
  induction h with
  | refl => exact hs
  | next hp hst _ ih => exact ih (numbered_step hp hst hs)

/-! ## Runs -/

theorem run_of_reads_run (h : Reads s es t) : s.run = (es ++ t.run.1, t.run.2) := by
  induction h with
  | refl => rfl
  | next hp hs _ ih => rw [run_of_step hp hs, ih, List.append_assoc]

/-- A run under new numbers; only where nothing has been read is there no number to change. -/
theorem run_renumber {ρ : Nat → Nat} {b : Tally} (hρ : Function.Injective ρ)
    (hs : s.pending ≠ [] ∨ s.group.isSome = true) :
    (s.renumber ρ b).run = renumberedResult ρ b s.run := by
  obtain ⟨es, t, hr, ht | ⟨line, later, fs, e, hp, he⟩⟩ := exists_reads s
  · have hg : t.group.isSome = true := by
      cases hr with
      | refl => exact hs.resolve_left (fun h => h ht)
      | next _ hst hr => exact group_isSome_of_reads hr (group_isSome_step hst)
    have ht' : (t.renumber ρ b).pending = [] := by rw [pending_renumber, ht]; rfl
    rw [run_of_reads hr ht, run_of_reads (reads_renumber hρ hr) ht', close_renumber hg,
      ← List.map_append]
    rfl
  · have hp' : (t.renumber ρ b).pending = line.renumber ρ :: later.map (.renumber ρ) := by
      rw [pending_renumber, hp]; rfl
    rw [run_of_reads_error hr hp he,
      run_of_reads_error (reads_renumber hρ hr) hp' (step_renumber_error hρ he),
      ← List.map_append]
    rfl

/-! ## Where one header ends -/

def regroup (g : Option SourceLine) (s : State) : State :=
  { s with group := g }

/-- A line that still has to end does so before the next one begins, and nothing else changes. -/
theorem step_regroup {g : SourceLine} (hs : s.group = none) (hg : g.number ≠ line.number) :
    (s.regroup (some g)).step line later =
      ((s.regroup (some g)).callback (.lineEnd (String.ofList g.text)) :: (s.step line later).1,
        (s.step line later).2) := by
  have h1 : ({ s with pending := later }.regroup (some g)).enter line =
      ([(s.regroup (some g)).callback (.lineEnd (String.ofList g.text))] ++
        ({ s with pending := later }.enter line).1,
        ({ s with pending := later }.enter line).2) := by
    simp [enter, regroup, hs, hg, callback, State.line]
  have h2 : { s.regroup (some g) with pending := later } =
      { s with pending := later }.regroup (some g) := rfl
  unfold step
  simp only [h2, h1]
  rfl

theorem run_regroup {g : SourceLine} (hs : s.group = none) (hp : s.pending = line :: later)
    (hg : g.number ≠ line.number) :
    (s.regroup (some g)).run =
      ((s.regroup (some g)).callback (.lineEnd (String.ofList g.text)) :: s.run.1, s.run.2) := by
  have hst : (s.regroup (some g)).step line later = _ := step_regroup hs hg
  have hp' : (s.regroup (some g)).pending = line :: later := hp
  rcases h : s.step line later with ⟨es, e | t⟩
  · rw [h] at hst
    rw [run_of_error hp' hst, run_of_error hp h]
  · rw [h] at hst
    rw [run_of_step hp' hst, run_of_step hp h]
    rfl

end State

/-! ## Callbacks -/

def callbacksOf (es : List Entry) : List Callback :=
  es.filterMap fun
    | .callback c => some c
    | .note _ => none

theorem callbacks_eq (r : Reading) : r.callbacks = callbacksOf r.entries := rfl

@[simp] theorem callbacksOf_append (es fs : List Entry) :
    callbacksOf (es ++ fs) = callbacksOf es ++ callbacksOf fs :=
  List.filterMap_append

@[simp] theorem callbacksOf_nil : callbacksOf [] = [] := rfl

@[simp] theorem callbacksOf_note (n : Note) (es : List Entry) :
    callbacksOf (.note n :: es) = callbacksOf es := rfl

@[simp] theorem callbacksOf_callback (s : State) (e : Event) (es : List Entry) :
    callbacksOf (s.callback e :: es) = ⟨e, s.line, s.scopes⟩ :: callbacksOf es := rfl

theorem callbacksOf_renumber (ρ : Nat → Nat) (es : List Entry) :
    callbacksOf (es.map (.renumber ρ)) = (callbacksOf es).map (.renumber ρ) := by
  induction es with
  | nil => rfl
  | cons e es ih =>
    cases e with
    | note n => exact ih
    | callback c => exact congrArg (_ :: ·) ih

/-- The callbacks of constructs and braces among some callbacks. -/
def structural (cs : List Callback) : List Callback :=
  cs.filter (·.event.isStructural)

@[simp] theorem structural_append (cs ds : List Callback) :
    structural (cs ++ ds) = structural cs ++ structural ds :=
  List.filter_append ..

theorem structural_renumber (ρ : Nat → Nat) (cs : List Callback) :
    structural (cs.map (.renumber ρ)) = (structural cs).map (.renumber ρ) :=
  List.filter_map

def Callback.call (c : Callback) : Call :=
  (c.event, c.scopes)

theorem calls_eq_structural (es : List Entry) :
    calls es = (structural (callbacksOf es)).map Callback.call := by
  induction es with
  | nil => rfl
  | cons e es ih =>
    cases e with
    | note n => exact ih
    | callback c =>
      rw [← List.singleton_append, calls_append, callbacksOf_append, structural_append,
        List.map_append, ih]
      congr 1
      cases h : c.event.isStructural <;>
        simp [calls, Entry.call?, callbacksOf, structural, h, Callback.call]

/-- Where no call is made, there is no callback of a construct or brace. -/
theorem structural_of_calls_nil {es : List Entry} (h : calls es = []) :
    structural (callbacksOf es) = [] := by
  rwa [calls_eq_structural, List.map_eq_nil_iff] at h

theorem parse_of_run {source : String} {es : List Entry} {r : Except UnbalancedBrace State}
    (h : (startOf source).run = (es, r)) :
    (parse source).callbacks = ⟨.parseStart, 0, []⟩ :: callbacksOf es ∧
      (∀ e, r = .error e → (parse source).result = .error e) ∧
      ∀ t, r = .ok t → (parse source).result = .ok ⟨⟨(lines source.toList).length,
        t.tally.constructs, t.scopes.length⟩, t.tally,
        (SourceLine.ofSource source.toList).length⟩ := by
  rw [startOf] at h
  cases r with
  | error e =>
    simp only [callbacks_eq, parse, h]
    refine ⟨rfl, ?_, ?_⟩
    · intro e' he
      cases he
      rfl
    · intro t ht
      cases ht
  | ok t =>
    simp only [callbacks_eq, parse, h]
    refine ⟨by simp [State.start, State.line], ?_, ?_⟩
    · intro e he
      cases he
    · intro u hu
      cases hu
      rfl

theorem entries_of_run {source : String} {es : List Entry} {r : Except UnbalancedBrace State}
    (h : (startOf source).run = (es, r)) :
    (parse source).entries = .callback ⟨.parseStart, 0, []⟩ :: (es ++ match r with
      | .error _ => []
      | .ok t => [.note (.finished t.tally.constructs t.tally.merges t.tally.discarded)]) := by
  rw [startOf] at h
  cases r with
  | error e => simp only [parse, h, List.append_nil]; rfl
  | ok t => simp only [parse, h]; rfl

theorem calls_of_run {source : String} {es : List Entry} {r : Except UnbalancedBrace State}
    (h : (startOf source).run = (es, r)) : (parse source).calls = calls es := by
  rw [Reading.calls, entries_of_run h, ← List.singleton_append, calls_append, calls_append]
  cases r <;> exact List.append_nil _

/-! ## Two headers -/

def lineFeeds (s : String) : Nat :=
  s.toList.count '\n'

/-- The callback as it is made `n` lines further down. Only the end of a parse without any line
bears a line that does not go along. -/
def Callback.Follows (n : Nat) (bare : Prop) (c d : Callback) : Prop :=
  d.event = c.event ∧ d.scopes = c.scopes ∧ (d.line = c.line + n ∨ c.event = .parseEnd ∧ bare)

theorem forall₂_follows (n : Nat) (bare : Prop) (cs : List Callback) :
    List.Forall₂ (Callback.Follows n bare) cs (cs.map (.renumber (· + n))) := by
  induction cs with
  | nil => exact .nil
  | cons c cs ih => exact .cons ⟨rfl, rfl, .inl rfl⟩ ih

open State

/-- The state in which two headers in a row are read from their start. -/
theorem startOf_append {a b : String} (hc : ¬ SourceLine.EndsInComment a.toList) :
    startOf (a ++ "\n" ++ b) = (startOf a).withLater
      ((startOf b).pending.map (.renumber (· + lineFeeds (a ++ "\n")))) := by
  have hs : (a ++ "\n" ++ b).toList = a.toList ++ '\n' :: b.toList := by simp
  have hn : lineFeeds (a ++ "\n") = a.toList.count '\n' + 1 := by simp [lineFeeds]
  rw [hn, startOf, hs, SourceLine.ofSource_append hc]
  rfl

namespace State

def ended (s : State) : List Entry :=
  match s.group with
  | some l => [s.callback (.lineEnd (String.ofList l.text))]
  | none => []

theorem close_of_scopes_nil {s : State} (h : s.scopes = []) :
    s.close = s.ended ++ [s.callback .parseEnd] := by
  rw [close, h, ended]
  cases s.group <;> rfl

/-- A header that ends clean comes to a state with nothing pending and no scope. -/
theorem reads_clean {a : String} {f : Finished} (ha : (parse a).result = .ok f)
    (hu : f.summary.unclosedScopes = 0) (hm : ∀ c ∈ (parse a).callbacks, c.event.endsOpen = false) :
    ∃ es t, Reads (startOf a) es t ∧ t.pending = [] ∧ t.scopes = [] ∧ (∀ e ∈ es, e.IsSettled) ∧
      f = ⟨⟨(lines a.toList).length, t.tally.constructs, t.scopes.length⟩, t.tally,
        (SourceLine.ofSource a.toList).length⟩ ∧
      (parse a).callbacks = (⟨.parseStart, 0, []⟩ :: (callbacksOf es ++ callbacksOf t.ended)) ++
        [⟨.parseEnd, t.line, t.scopes⟩] := by
  obtain ⟨es, t, hr, ht⟩ : ∃ es t, Reads (startOf a) es t ∧ t.pending = [] := by
    obtain ⟨es, t, hr, ⟨ht, -⟩ | ⟨_, _, _, e, -, -, -, he⟩⟩ := parse_cases a
    · exact ⟨es, t, hr, ht⟩
    · rw [ha] at he; cases he
  obtain ⟨hac, -, har⟩ := parse_of_run (run_of_reads hr ht)
  obtain rfl : f = _ := Except.ok.inj (ha.symm.trans (har t rfl))
  have hscopes : t.scopes = [] := List.eq_nil_of_length_eq_zero hu
  refine ⟨es, t, hr, ht, hscopes, fun e he => ?_, rfl, ?_⟩
  · cases e with
    | note n => trivial
    | callback c =>
      have hmem : c ∈ (parse a).callbacks := by
        rw [hac]
        exact List.mem_cons_of_mem _ (List.mem_filterMap.mpr ⟨_, List.mem_append_left _ he, rfl⟩)
      exact hm c hmem
  · rw [hac, close_of_scopes_nil hscopes]
    simp

/-- Where the first header has come to its end, the second is read as if it stood alone, but for the
end of the line before it. -/
theorem run_second {a b : String} {es : List Entry} {t : State} (hr : Reads (startOf a) es t)
    (ht : t.pending = []) (hu : t.scopes = []) (hb : (startOf b).pending ≠ []) :
    (t.withLater ((startOf b).pending.map (.renumber (· + lineFeeds (a ++ "\n"))))).run =
      (t.ended ++ (renumberedResult (· + lineFeeds (a ++ "\n")) t.tally (startOf b).run).1,
        (renumberedResult (· + lineFeeds (a ++ "\n")) t.tally (startOf b).run).2) := by
  have hn : lineFeeds (a ++ "\n") = a.toList.count '\n' + 1 := by simp [lineFeeds]
  have hnum : Numbered (· ≤ lineFeeds (a ++ "\n")) t := by
    refine numbered_of_reads hr ⟨fun l hl => ?_, fun g hg => by cases hg⟩
    have hl' : l ∈ SourceLine.ofLines .code 1 (lines (a.toList ++ ['\n'])) := by
      rw [(SourceLine.ofLines_newline (.inl rfl) 1 a.toList).1]
      exact hl
    have h := (SourceLine.number_of_mem_ofLines hl').2
    rw [length_lines_newline] at h
    show l.number ≤ _
    omega
  have hpos : ∀ l ∈ (startOf b).pending, 1 ≤ l.number := fun l hl =>
    (SourceLine.number_of_mem_ofLines hl).1
  generalize lineFeeds (a ++ "\n") = n at hnum
  have hrun := run_renumber (ρ := (· + n)) (b := t.tally) (fun _ _ h => Nat.add_right_cancel h)
    (s := startOf b) (.inl hb)
  have hv : t.withLater ((startOf b).pending.map (.renumber (· + n))) =
      ((startOf b).renumber (· + n) t.tally).regroup t.group := by
    rw [withLater, ht, hu]
    rfl
  rw [hv, ← hrun, ended]
  obtain ⟨line, later, hp⟩ := List.exists_cons_of_ne_nil hb
  have hp' : ((startOf b).renumber (· + n) t.tally).pending =
      line.renumber (· + n) :: later.map (.renumber (· + n)) := by
    rw [pending_renumber, hp]
    rfl
  cases hg : t.group with
  | none => rfl
  | some g =>
    have h1 := hnum.2 g hg
    have h2 := hpos line (hp ▸ List.mem_cons_self)
    have h3 : g.number ≠ (line.renumber (· + n)).number := by
      show g.number ≠ line.number + n
      omega
    rw [run_regroup rfl hp' h3]
    simp [callback, State.line, regroup, hg, hu]
    rfl

end State

/-- A header that ends clean does not bear on the one behind it: the two together make the callbacks
of the first but its end, and then those of the second but its start, further down by the line feeds
before it. They fail where the second does, and otherwise their counts add up. -/
theorem parse_append {a b : String} {f : Finished} (ha : (parse a).result = .ok f)
    (hu : f.summary.unclosedScopes = 0) (hd : f.tally.discarded = 0)
    (hm : ∀ c ∈ (parse a).callbacks, c.event.endsOpen = false)
    (hc : ¬ SourceLine.EndsInComment a.toList) :
    (∃ as bs cs last first, (parse a).callbacks = as ++ [last] ∧ last.event = .parseEnd ∧
      (parse b).callbacks = first :: bs ∧ first.event = .parseStart ∧
      (parse (a ++ "\n" ++ b)).callbacks = as ++ cs ∧
      List.Forall₂ (Callback.Follows (lineFeeds (a ++ "\n")) (SourceLine.ofSource b.toList = []))
        bs cs) ∧
    (∀ e, (parse b).result = .error e →
      (parse (a ++ "\n" ++ b)).result = .error ⟨e.line + lineFeeds (a ++ "\n")⟩) ∧
    ∀ g, (parse b).result = .ok g → ∃ h, (parse (a ++ "\n" ++ b)).result = .ok h ∧
      h.summary.constructs = f.summary.constructs + g.summary.constructs ∧
      h.summary.unclosedScopes = g.summary.unclosedScopes ∧ h.tally = f.tally + g.tally := by
  obtain ⟨es, t, hr, ht, hscopes, hsettled, rfl, hac⟩ := State.reads_clean ha hu hm
  -- Before the lines of the second, it takes the same course.
  have hr' : State.Reads ((startOf a).withLater
      ((startOf b).pending.map (.renumber (· + lineFeeds (a ++ "\n"))))) es _ :=
    reads_withLater hr hd hsettled
  have hrun' := run_of_reads_run hr'
  rw [← startOf_append hc] at hrun'
  obtain ⟨hcc, hce, hcr⟩ := parse_of_run hrun'
  obtain ⟨hbc, hbe, hbr⟩ := parse_of_run (Prod.eta (startOf b).run).symm
  by_cases hb : (startOf b).pending = []
  · -- Nothing follows: the first header ends as it does alone.
    have ht' :
        t.withLater ((startOf b).pending.map (.renumber (· + lineFeeds (a ++ "\n")))) = t := by
      rw [hb, withLater]
      simp
    rw [ht', run_of_pending_nil ht] at hcc hce hcr
    rw [run_of_pending_nil hb] at hbc hbe hbr
    have hcc' : (parse (a ++ "\n" ++ b)).callbacks = (⟨.parseStart, 0, []⟩ :: (callbacksOf es ++
        callbacksOf t.ended)) ++ [⟨.parseEnd, t.line, t.scopes⟩] := by
      rw [hcc, State.close_of_scopes_nil hscopes]
      simp
    have hend : Callback.Follows (lineFeeds (a ++ "\n")) (SourceLine.ofSource b.toList = [])
        ⟨.parseEnd, 0, []⟩ ⟨.parseEnd, t.line, t.scopes⟩ := ⟨rfl, hscopes, .inr ⟨rfl, hb⟩⟩
    refine ⟨⟨_, [⟨.parseEnd, 0, []⟩], _, _, _, hac, rfl, hbc, rfl, hcc', .cons hend .nil⟩, ?_, ?_⟩
    · intro e he
      rw [hbr _ rfl] at he
      cases he
    · intro g hg
      rw [hbr _ rfl] at hg
      cases hg
      exact ⟨_, hcr _ rfl, rfl, hu, rfl⟩
  · rw [run_second hr ht hscopes hb] at hcc hce hcr
    have hcc' : (parse (a ++ "\n" ++ b)).callbacks = (⟨.parseStart, 0, []⟩ :: (callbacksOf es ++
        callbacksOf t.ended)) ++ (callbacksOf (startOf b).run.1).map
          (.renumber (· + lineFeeds (a ++ "\n"))) := by
      rw [hcc]
      simp only [renumberedResult, callbacksOf_append, callbacksOf_renumber, List.cons_append,
        List.append_assoc]
    refine ⟨⟨_, _, _, _, _, hac, rfl, hbc, rfl, hcc', forall₂_follows ..⟩, ?_, ?_⟩
    · intro e he
      cases hres : (startOf b).run.2 with
      | error e' =>
        rw [hbe _ hres] at he
        cases he
        exact hce _ (by simp only [renumberedResult, hres]; rfl)
      | ok u => rw [hbr _ hres] at he; cases he
    · intro g hg
      cases hres : (startOf b).run.2 with
      | error e' => rw [hbe _ hres] at hg; cases hg
      | ok u =>
        rw [hbr _ hres] at hg
        cases hg
        have hok := hcr (u.renumber (· + lineFeeds (a ++ "\n")) t.tally)
          (by simp only [renumberedResult, hres])
        exact ⟨_, hok, rfl, rfl, rfl⟩

/-- A header that closes what it opens, with a macro and a comment. -/
def closedHeader : String :=
  "namespace n \x7b\n#define K 1\nint f(); // f\n\x7d /* n */"

/-- A header that opens a class, and closes one brace too many. -/
def overclosedHeader : String :=
  "class C \x7b\n int g(\n  int x);\n\x7d; \x7d"

theorem parse_append_overclosed :
    (parse closedHeader).result = .ok ⟨⟨4, 3, 0⟩, ⟨5, 3, 0, 0⟩, 4⟩ ∧
      (∀ c ∈ (parse closedHeader).callbacks, c.event.endsOpen = false) ∧
      ¬ SourceLine.EndsInComment closedHeader.toList ∧
      (parse overclosedHeader).result = .error ⟨4⟩ ∧
      (parse (closedHeader ++ "\n" ++ overclosedHeader)).result = .error ⟨8⟩ := by
  have h1 : (parse closedHeader).result = .ok ⟨⟨4, 3, 0⟩, ⟨5, 3, 0, 0⟩, 4⟩ := by decide +kernel
  have h2 : ∀ c ∈ (parse closedHeader).callbacks, c.event.endsOpen = false := by decide +kernel
  have h3 : ¬ SourceLine.EndsInComment closedHeader.toList := by decide +kernel
  have h4 : (parse overclosedHeader).result = .error ⟨4⟩ := by decide +kernel
  exact ⟨h1, h2, h3, h4, (parse_append h1 rfl rfl h2 h3).2.1 _ h4⟩

end HeaderOutline
