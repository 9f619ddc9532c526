import HeaderOutline.Proofs.CleanPrefix
/-!
# The grammar of the callbacks

A reading reports the start of the parse, then one group for each line that it comes to read, then
the end of the parse. A group is the start of its line, constructs, and the end of its line, all
under the number of the line. A reading that fails stops inside the last group.

A line may be dispatched in many fragments, and a fragment may swallow later lines, so the numbers
of the pending lines carry the argument: the lines begun so far, the line that is being read and the
pending lines come one after the other among the lines of the header, and what differs from a line
of the header is a rest of the line that is being read. `Along` says so of a state together with
what has been put out on the way to it.

Results:
* `isWithin_dispatch`: a dispatch reports constructs only, under the number of its line.
* `along_of_reads`: every state of a reading has its line open and all earlier ones closed.
* `callbacks_follow_lines`: the callbacks of a whole reading.
-/
namespace HeaderOutline
open Text

/-! ## The grammar -/

def Callback.IsWithin (number : Nat) (c : Callback) : Prop :=
  c.event.isStructural = true ∧ c.line = number

/-- The start of a line, and constructs under its number. -/
def BeginsGroup (l : SourceLine) (cs : List Callback) : Prop :=
  ∃ c ds, cs = c :: ds ∧ (c.event = .lineStart (String.ofList l.text) ∧ c.line = l.number) ∧
    ∀ d ∈ ds, d.IsWithin l.number

/-- The start of a line, constructs, and the end of the line, all under its number. -/
def IsGroup (l : SourceLine) (cs : List Callback) : Prop :=
  ∃ ds d, cs = ds ++ [d] ∧ BeginsGroup l ds ∧
    d.event = .lineEnd (String.ofList l.text) ∧ d.line = l.number

/-- One group for each line. -/
inductive Groups : List SourceLine → List Callback → Prop
  | nil : Groups [] []
  | cons {l : SourceLine} {ls : List SourceLine} {cs ds : List Callback} : IsGroup l cs →
      Groups ls ds → Groups (l :: ls) (cs ++ ds)

/-- The start of the parse, one group for each line, and the end of the parse. -/
def IsStream (ls : List SourceLine) (cs : List Callback) : Prop :=
  ∃ c ds d, cs = c :: (ds ++ [d]) ∧ c.event = .parseStart ∧ Groups ls ds ∧ d.event = .parseEnd

/-- The start of the parse, one group for each of the lines `ls`, and the beginning of the group of
the line `l`. -/
def StopsInside (ls : List SourceLine) (l : SourceLine) (cs : List Callback) : Prop :=
  ∃ c ds bs, cs = c :: (ds ++ bs) ∧ c.event = .parseStart ∧ Groups ls ds ∧ BeginsGroup l bs

theorem BeginsGroup.append {l : SourceLine} {cs ds : List Callback} (h : BeginsGroup l cs)
    (hd : ∀ d ∈ ds, d.IsWithin l.number) : BeginsGroup l (cs ++ ds) := by
  obtain ⟨c, bs, rfl, hc, hb⟩ := h
  refine ⟨c, bs ++ ds, rfl, hc, fun d hm => ?_⟩
  rcases List.mem_append.mp hm with hm | hm
  · exact hb d hm
  · exact hd d hm

theorem BeginsGroup.ended {l : SourceLine} {cs : List Callback} (h : BeginsGroup l cs)
    (scopes : ScopeStack) :
    IsGroup l (cs ++ [⟨.lineEnd (String.ofList l.text), l.number, scopes⟩]) :=
  ⟨cs, _, rfl, h, rfl, rfl⟩

theorem Groups.snoc {l : SourceLine} {ls : List SourceLine} {cs ds : List Callback}
    (h : Groups ls cs) (hd : IsGroup l ds) : Groups (ls ++ [l]) (cs ++ ds) := by
  induction h with
  | nil => simpa using Groups.cons hd .nil
  | cons hg _ ih => rw [List.append_assoc]; exact .cons hg ih

theorem StopsInside.isStream_append {l : SourceLine} {ls : List SourceLine} {cs : List Callback}
    (h : StopsInside ls l cs) : ∃ rest, IsStream (ls ++ [l]) (cs ++ rest) := by
  obtain ⟨c, ds, bs, rfl, hc, hd, hb⟩ := h
  refine ⟨[⟨.lineEnd (String.ofList l.text), l.number, []⟩, ⟨.parseEnd, l.number, []⟩],
    c, _, ⟨.parseEnd, l.number, []⟩, ?_, hc, hd.snoc (hb.ended []), rfl⟩
  simp

/-! ## One step -/

namespace State

variable {s t : State} {line : SourceLine} {later : List SourceLine} {es : List Entry}

theorem isWithin_report {e : Event} (he : e.isStructural = true) (body : Option Frame) :
    ∀ c ∈ callbacksOf (s.report e body).1, c.IsWithin s.line := by
  simpa [report, Callback.IsWithin] using he

theorem isWithin_openBrace : ∀ c ∈ callbacksOf s.openBrace.1, c.IsWithin s.line := by
  unfold openBrace
  split
  · simp
  · next f fs _ =>
    split
    · simp
    · cases f <;> simp [startEvent?, Callback.IsWithin, Event.isStructural, State.line]

theorem isWithin_closeBrace (number : Nat) :
    ∀ c ∈ callbacksOf (s.closeBrace number).1, c.IsWithin s.line := by
  have hn : ∀ fs : ScopeStack,
      callbacksOf (fs.map fun f => Entry.note (.dropped number f.kind)) = [] := by
    intro fs
    induction fs with
    | nil => rfl
    | cons f fs ih => exact ih
  unfold closeBrace
  simp only
  split
  · simp [hn]
  · next f fs _ =>
    cases f <;> simp [hn, endEvent?, Callback.IsWithin, Event.isStructural, State.line]

theorem isWithin_perform (k : Construct) :
    ∀ c ∈ callbacksOf (s.perform k).1, c.IsWithin s.line := by
  cases k with
  | define name value => exact isWithin_report (s := { s with pending := _ }) rfl none
  | nameSpace name | classHead head => exact isWithin_report rfl _
  | function f terminated => cases terminated <;> exact isWithin_report rfl _
  | constructor c terminated => cases terminated <;> exact isWithin_report rfl _
  | destructor name terminated => cases terminated <;> exact isWithin_report rfl _
  | openBrace => exact isWithin_openBrace
  | access | linkage | directive | statement | enumHead | closeBrace => simp [perform]

theorem isWithin_readEnum : ∀ c ∈ callbacksOf (s.readEnum line).1, c.IsWithin s.line := by
  unfold readEnum
  simp only
  split
  · exact isWithin_report (s := countMerges _ { s with pending := _ }) rfl none
  · simp
  · simp

theorem callbacksOf_unmatched : callbacksOf (s.unmatched line).1 = [] := by
  unfold unmatched
  split <;> rfl

theorem callbacksOf_putBack (number : Nat) (rest : List Char) :
    callbacksOf (s.putBack number rest).1 = [] := by
  unfold putBack
  simp only
  split <;> rfl

theorem isWithin_act {rest : List Char} {k : Construct} :
    ∀ c ∈ callbacksOf (s.act line rest k).1, c.IsWithin s.line := by
  unfold act
  split
  · exact isWithin_readEnum
  · have hc := isWithin_closeBrace (s := s) line.number
    split
    · next heq => rwa [heq] at hc
    · next heq =>
      rw [heq] at hc
      simpa only [callbacksOf_append, callbacksOf_putBack, List.append_nil] using hc
  · simpa only [callbacksOf_append, callbacksOf_putBack, List.append_nil]
      using isWithin_perform k

/-- A dispatch reports constructs only, under the number of the line that is being read. -/
theorem isWithin_dispatch (line : SourceLine) (s : State) :
    ∀ c ∈ callbacksOf (s.dispatch line).1, c.IsWithin s.line := by
  unfold dispatch
  simp only
  split
  · simp [callbacksOf_unmatched]
  · exact isWithin_act (s := s.countDispatched)

end State

/-- What a step leaves is a later part of the lines behind its own, with at most one line in front,
under the number of its own. -/
theorem Cut.left_cases {line : SourceLine} {later left : List SourceLine} {text : List Char}
    (h : Cut line later text left) :
    ∃ more, more <:+ later ∧ (left = more ∨ ∃ x, left = x :: more ∧ x.number = line.number) := by
  cases h with
  | @parted rest n =>
    refine ⟨later.drop n, List.drop_suffix n later, ?_⟩
    unfold requeue
    simp only
    split
    · exact .inl rfl
    · exact .inr ⟨_, rfl, rfl⟩
  | @joined next more he => exact ⟨more, he ▸ List.suffix_cons .., .inr ⟨_, rfl, rfl⟩⟩

/-! ## Courses -/

/-- What has been put out while the line `l` is being read: the groups of the lines `ls` before it,
and the beginning of its own. What is pending comes behind it among `lines`, but for a rest of it in
front. -/
structure Inside (lines ls : List SourceLine) (l : SourceLine) (cs : List Callback)
    (s : State) : Prop where
  group : s.group = some l
  callbacks : ∃ ds bs, cs = ds ++ bs ∧ Groups ls ds ∧ BeginsGroup l bs
  pending : ∃ more, (ls ++ l :: more).Sublist lines ∧
    (s.pending = more ∨ ∃ x, s.pending = x :: more ∧ x.number = l.number)

/-- Before its first step a reading has put out nothing; from then on some line is being read. -/
inductive Along (lines : List SourceLine) : List Callback → State → Prop
  | start {s : State} : s.pending = lines → s.group = none → Along lines [] s
  | inside {s : State} {ls : List SourceLine} {l : SourceLine} {cs : List Callback} :
      Inside lines ls l cs s → Along lines cs s

namespace State

variable {lines ls : List SourceLine} {s t : State} {line l : SourceLine}
  {later : List SourceLine} {es : List Entry} {cs : List Callback}

/-- A number that is being read goes on without the start or the end of a line. -/
theorem enter_of_number {g : SourceLine} (hg : s.group = some g) (hn : g.number = line.number) :
    s.enter line = ([], s) := by
  simp [enter, hg, hn]

theorem enter_of_ne {g : SourceLine} (hg : s.group = some g) (hn : g.number ≠ line.number) :
    s.enter line = ([s.callback (.lineEnd (String.ofList g.text)),
      { s with group := some line }.callback (.lineStart (String.ofList line.text))],
      { s with group := some line }) := by
  simp [enter, hg, hn]

theorem enter_of_none (hg : s.group = none) :
    s.enter line = ([{ s with group := some line }.callback (.lineStart (String.ofList line.text))],
      { s with group := some line }) := by
  simp [enter, hg]

/-- Once its line has been entered, the fragment at the front belongs to the line that is being
read. -/
theorem inside_enter (hl : lines.Pairwise (·.number < ·.number)) (hp : s.pending = line :: later)
    (h : Along lines cs s) :
    ∃ ls l, l.number = line.number ∧ (ls ++ l :: later).Sublist lines ∧
      ({ s with pending := later }.enter line).2.group = some l ∧
      ∃ ds bs, cs ++ callbacksOf ({ s with pending := later }.enter line).1 = ds ++ bs ∧
        Groups ls ds ∧ BeginsGroup l bs := by
  cases h with
  | start hpend hg =>
    refine ⟨[], line, rfl, ?_, ?_⟩
    · rw [← hpend, hp]; exact .refl _
    · rw [enter_of_none (s := { s with pending := later }) hg]
      exact ⟨rfl, [], _, rfl, .nil, _, [], rfl, ⟨rfl, rfl⟩, by simp⟩
  | @inside _ ls l _ h =>
    obtain ⟨ds, bs, rfl, hds, hbs⟩ := h.callbacks
    obtain ⟨more, hsub, hmore | ⟨x, hmore, hx⟩⟩ := h.pending
    · -- The line of the header behind the one that is being read: its number is greater.
      rw [← hmore, hp] at hsub
      have hne : l.number ≠ line.number := by
        have hpw := hl.sublist hsub
        have := (List.pairwise_cons.mp (List.pairwise_append.mp hpw).2.1).1 line List.mem_cons_self
        omega
      refine ⟨ls ++ [l], line, rfl, by simpa using hsub, ?_⟩
      rw [enter_of_ne (s := { s with pending := later }) h.group hne]
      refine ⟨rfl, ds ++ (bs ++ [⟨.lineEnd (String.ofList l.text), l.number, s.scopes⟩]),
        [⟨.lineStart (String.ofList line.text), line.number, s.scopes⟩], ?_,
        hds.snoc (hbs.ended _), _, [], rfl, ⟨rfl, rfl⟩, by simp⟩
      simp [State.line, h.group]
    · rw [hp] at hmore
      obtain ⟨rfl, rfl⟩ := List.cons.inj hmore
      rw [enter_of_number (s := { s with pending := later }) h.group hx.symm]
      exact ⟨ls, l, hx.symm, hsub, h.group, ds, bs, by simp, hds, hbs⟩

/-- What a step puts out goes on inside the group of the line that it enters, also where the step
fails. -/
theorem inside_step (hl : lines.Pairwise (·.number < ·.number)) (hp : s.pending = line :: later)
    (h : Along lines cs s) :
    ∃ ls l, l.number = line.number ∧ (ls ++ l :: later).Sublist lines ∧
      ({ s with pending := later }.enter line).2.group = some l ∧
      ∃ ds bs, cs ++ callbacksOf (s.step line later).1 = ds ++ bs ∧
        Groups ls ds ∧ BeginsGroup l bs := by
  obtain ⟨ls, l, hn, hsub, hg, ds, bs, heq, hds, hbs⟩ := inside_enter hl hp h
  have hd := isWithin_dispatch line ({ s with pending := later }.enter line).2
  rw [State.line, hg] at hd
  refine ⟨ls, l, hn, hsub, hg, ds, _, ?_, hds, hbs.append hd⟩
  rw [step, callbacksOf_append, ← List.append_assoc, heq, List.append_assoc]

theorem along_step (hl : lines.Pairwise (·.number < ·.number)) (hp : s.pending = line :: later)
    (hs : s.step line later = (es, .ok t)) (h : Along lines cs s) :
    Along lines (cs ++ callbacksOf es) t := by
  obtain ⟨ls, l, hn, hsub, hg, hc⟩ := inside_step hl hp h
  obtain ⟨more, hmore, ht⟩ := (cut_step hs).left_cases
  rw [hs] at hc
  simp only [step, Prod.mk.injEq] at hs
  refine .inside ⟨(group_dispatch (Prod.ext rfl hs.2)).trans hg, hc, more, ?_, hn ▸ ht⟩
  exact (List.Sublist.append (.refl ls) (hmore.sublist.cons_cons l)).trans hsub

/-- Every state of a reading has the line that is being read open and all earlier ones closed. -/
theorem along_of_reads (hl : lines.Pairwise (·.number < ·.number)) (hr : Reads s es t)
    (h : Along lines cs s) : Along lines (cs ++ callbacksOf es) t := by
  induction hr generalizing cs with
  | refl => simpa using h
  | next hp hs _ ih =>
    rw [callbacksOf_append, ← List.append_assoc]
    exact ih (along_step hl hp hs h)

end State

/-! ## Whole headers -/

theorem SourceLine.pairwise_ofLines (m : Mode) (n : Nat) (ls : List (List Char)) :
    (ofLines m n ls).Pairwise (·.number < ·.number) := by
  induction ls generalizing m n with
  | nil => exact .nil
  | cons k ls ih =>
    simp only [ofLines]
    split
    · exact ih ..
    · refine List.pairwise_cons.mpr ⟨fun l hl => ?_, ih ..⟩
      have := (number_of_mem_ofLines hl).1
      simp only
      omega

theorem State.callbacksOf_close (s : State) :
    callbacksOf s.close = callbacksOf s.ended ++ [⟨.parseEnd, s.line, s.scopes⟩] := by
  unfold State.close State.ended
  cases h : s.scopes <;> cases s.group <;> simp [h]

/-- What is put out at the end closes the line that is being read and the parse. -/
theorem Along.isStream_close {lines : List SourceLine} {cs : List Callback} {s : State}
    {c : Callback} (h : Along lines cs s) (hc : c.event = .parseStart) :
    ∃ ls, ls.Sublist lines ∧ IsStream ls (c :: (cs ++ callbacksOf s.close)) := by
  rw [State.callbacksOf_close, ← List.append_assoc]
  cases h with
  | start hp hg =>
    exact ⟨[], List.nil_sublist _, c, [], ⟨.parseEnd, s.line, s.scopes⟩,
      by simp [State.ended, hg], hc, .nil, rfl⟩
  | @inside _ ls l _ h =>
    obtain ⟨ds, bs, rfl, hds, hbs⟩ := h.callbacks
    obtain ⟨more, hsub, -⟩ := h.pending
    refine ⟨ls ++ [l], .trans ?_ hsub, c, _, ⟨.parseEnd, s.line, s.scopes⟩, ?_, hc,
      hds.snoc (hbs.ended s.scopes), rfl⟩
    · exact .append (.refl ls) (.cons_cons l (List.nil_sublist more))
    · simp [State.ended, State.line, h.group]

open State

/-- The callbacks of a header follow its lines: the start of the parse, one group for each line that
comes to be read, under increasing numbers, and the end of the parse. Where the parse fails, they
stop inside the group of the line that the error names. -/
theorem callbacks_follow_lines (source : String) :
    ∃ ls : List SourceLine, ls.Sublist (SourceLine.ofSource source.toList) ∧
      ls.Pairwise (·.number < ·.number) ∧
      match (parse source).result with
      | .ok _ => IsStream ls (parse source).callbacks
      | .error e => ∃ before l, ls = before ++ [l] ∧ l.number = e.line ∧
          StopsInside before l (parse source).callbacks ∧
          ∃ rest, IsStream ls ((parse source).callbacks ++ rest) := by
  have hl : (SourceLine.ofSource source.toList).Pairwise (·.number < ·.number) :=
    SourceLine.pairwise_ofLines ..
  have hstart : Along (SourceLine.ofSource source.toList) [] (startOf source) := .start rfl rfl
  obtain ⟨es, t, hr, ht | ⟨line, later, fs, e, hp, hs⟩⟩ := exists_reads (startOf source)
  · obtain ⟨hc, -, hok⟩ := parse_of_run (run_of_reads hr ht)
    obtain ⟨ls, hsub, hstream⟩ :=
      (along_of_reads hl hr hstart).isStream_close (c := ⟨.parseStart, 0, []⟩) rfl
    refine ⟨ls, hsub, hl.sublist hsub, ?_⟩
    rw [hok t rfl, hc, callbacksOf_append]
    exact hstream
  · obtain ⟨hc, herr, -⟩ := parse_of_run (run_of_reads_error hr hp hs)
    obtain ⟨ls, l, hn, hsub, -, ds, bs, heq, hds, hbs⟩ :=
      inside_step hl hp (along_of_reads hl hr hstart)
    rw [hs, List.nil_append, ← callbacksOf_append] at heq
    have hsub : (ls ++ [l]).Sublist (SourceLine.ofSource source.toList) :=
      .trans (.append (.refl ls) (.cons_cons l (List.nil_sublist later))) hsub
    have hstop : StopsInside ls l (parse source).callbacks :=
      ⟨⟨.parseStart, 0, []⟩, ds, bs, by rw [hc, heq], rfl, hds, hbs⟩
    refine ⟨ls ++ [l], hsub, hl.sublist hsub, ?_⟩
    rw [herr e rfl]
    refine ⟨ls, l, rfl, ?_, hstop, hstop.isStream_append⟩
    rw [hn, (step_error hs).2.1]

end HeaderOutline
