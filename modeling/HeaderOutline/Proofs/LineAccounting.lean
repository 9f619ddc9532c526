import HeaderOutline.Proofs.CommentLines
import HeaderOutline.Proofs.Effects
import HeaderOutline.Proofs.Fragments
import HeaderOutline.Session
/-!
# Every line and every construct is counted

The counts of a reading are kept in many places: constructs where they are reported, joined lines
where an enum or a fragment takes them along. Lines that continue a macro are taken along without
being counted. Here the counts are told by what the reading puts out and by what becomes of its
lines.

Behind the fragment at the front, only lines of the header are pending, and the fragment itself is
a line of the header unless it goes under the number of the line that is being read. So the lines
still to come, `fresh`, are known from the state; a step begins the first of them if its fragment is
one, and joins some of the next.

Results:
* `fresh_step`: a line that is no longer to come was begun or joined, in this order.
* `lines_of_reads`, `merges_of_reads`, `constructs_of_reads`: what this makes of a whole course.
* `weight_ofSource_le`: the counts are bounded by the length of the text.
* `metrics_accounted`: the counts of a header that is read to its end.
-/
namespace HeaderOutline
open Text

/-! ## Lines that are begun -/

def Callback.startedLine? (c : Callback) : Option SourceLine :=
  match c.event with
  | .lineStart text => some ⟨c.line, text.toList⟩
  | _ => none

/-- The lines that callbacks begin, in order, one for each start of a line. -/
def startedLines (cs : List Callback) : List SourceLine :=
  cs.filterMap Callback.startedLine?

@[simp] theorem startedLines_append (cs ds : List Callback) :
    startedLines (cs ++ ds) = startedLines cs ++ startedLines ds :=
  List.filterMap_append

theorem startedLines_eq_nil {cs : List Callback} (h : ∀ c ∈ cs, c.startedLine? = none) :
    startedLines cs = [] :=
  List.filterMap_eq_nil_iff.mpr h

theorem Callback.IsWithin.startedLine? {c : Callback} {n : Nat} (h : c.IsWithin n) :
    c.startedLine? = none := by
  obtain ⟨hk, -⟩ := h
  rcases c with ⟨e, m, fs⟩
  cases e <;> first | rfl | cases hk

/-! ## Constructs that are reported -/

theorem Event.isConstruct_of_isBrace {e : Event} (h : e.isBrace = true) :
    e.isConstruct = false := by
  cases e <;> first | rfl | cases h

/-- How many of the callbacks report a construct. -/
def constructCount (cs : List Callback) : Nat :=
  cs.countP (·.event.isConstruct)

@[simp] theorem constructCount_append (cs ds : List Callback) :
    constructCount (cs ++ ds) = constructCount cs + constructCount ds :=
  List.countP_append

theorem constructCount_eq_zero {cs : List Callback} (h : ∀ c ∈ cs, c.event.isConstruct = false) :
    constructCount cs = 0 :=
  List.countP_eq_zero.mpr fun c hc => by simp [h c hc]

theorem constructCount_le_calls (es : List Entry) :
    constructCount (callbacksOf es) ≤ (calls es).length := by
  rw [calls_eq_structural, List.length_map, structural, constructCount,
    ← List.countP_eq_length_filter]
  refine List.countP_mono_left fun c _ hc => ?_
  rcases c with ⟨e, m, fs⟩
  cases e <;> first | rfl | cases hc

namespace State

variable {s t : State} {line : SourceLine} {later : List SourceLine} {es : List Entry}

/-! ## Lines that are joined -/

/-- The line defines a macro, so that the lines joined to it continue the macro. -/
def definesMacro (line : SourceLine) (s : State) : Bool :=
  match s.found? line with
  | some (_, .define _ _, _) => true
  | _ => false

/-- The lines that the dispatch of `line` joins to a macro, or those that it joins to anything
else. -/
def joinedTo (toMacro : Bool) (line : SourceLine) (later : List SourceLine) (s : State) :
    List SourceLine :=
  if s.definesMacro line = toMacro then s.joined line later else []

theorem joinedTo_append (line : SourceLine) (later : List SourceLine) (s : State) :
    s.joinedTo false line later ++ s.joinedTo true line later = s.joined line later := by
  cases h : s.definesMacro line <;> simp [joinedTo, h]

/-- The lines that the reading joins to macros from here on, or those that it joins to anything
else, in order. -/
def linesJoinedTo (toMacro : Bool) (s : State) : List SourceLine :=
  match _hs : s.pending with
  | [] => []
  | line :: later =>
    match _h : s.step line later with
    | (_, .error _) => s.joinedTo toMacro line later
    | (_, .ok next) => s.joinedTo toMacro line later ++ linesJoinedTo toMacro next
termination_by weight s.pending
decreasing_by
  rw [_hs]
  exact weight_step (by rw [_h])

theorem linesJoinedTo_of_pending_nil (toMacro : Bool) (h : s.pending = []) :
    s.linesJoinedTo toMacro = [] := by
  rw [linesJoinedTo]
  split
  · rfl
  · next h' => rw [h] at h'; cases h'

theorem linesJoinedTo_of_step (toMacro : Bool) (hp : s.pending = line :: later)
    (hs : s.step line later = (es, .ok t)) :
    s.linesJoinedTo toMacro = s.joinedTo toMacro line later ++ t.linesJoinedTo toMacro := by
  rw [linesJoinedTo]
  split
  · next h' => rw [hp] at h'; cases h'
  · next h' =>
    rw [hp] at h'
    cases h'
    split
    · next h' => rw [hs] at h'; cases h'
    · next h' => rw [hs] at h'; cases h'; rfl

/-! ## Lines still to come -/

/-- The lines that have been neither begun nor joined: all that are pending, but for what is left of
the line that is being read. -/
def fresh (s : State) : List SourceLine :=
  match s.pending with
  | [] => []
  | line :: later => if s.group.map (·.number) = some line.number then later else line :: later

/-- Behind a rest of the line that is being read, only lines with greater numbers are pending. -/
theorem fresh_of_left {n : Nat} {more : List SourceLine} (hg : s.group.map (·.number) = some n)
    (hm : ∀ m ∈ more, n < m.number)
    (hp : s.pending = more ∨ ∃ x, s.pending = x :: more ∧ x.number = n) : s.fresh = more := by
  rcases hp with hp | ⟨x, hp, rfl⟩
  · cases more with
    | nil => rw [fresh, hp]
    | cons m more =>
      have hne : some n ≠ some m.number := fun h => by
        have := hm m List.mem_cons_self
        cases h
        omega
      simp only [fresh, hp, hg, if_neg hne]
  · simp only [fresh, hp, hg, if_true]

theorem startedLines_enter (line : SourceLine) (s : State) :
    startedLines (callbacksOf (s.enter line).1) =
      if s.group.map (·.number) = some line.number then [] else [line] := by
  have htext : (String.ofList line.text).toList = line.text := String.toList_ofList
  unfold enter
  split
  · rfl
  · have hstart : [SourceLine.mk line.number (String.ofList line.text).toList] = [line] := by
      rw [htext]
    cases s.group <;> exact hstart

/-- A dispatch begins no line. -/
theorem startedLines_dispatch (line : SourceLine) (s : State) :
    startedLines (callbacksOf (s.dispatch line).1) = [] :=
  startedLines_eq_nil fun c hc => (isWithin_dispatch line s c hc).startedLine?

theorem number_group_step (h : s.step line later = (es, .ok t)) :
    t.group.map (·.number) = some line.number := by
  rcases group_step h with hg | ⟨hg, hn⟩
  · rw [hg]; rfl
  · rw [hg, hn]

/-- The lines that a step does away with are begun or joined by it, in their order. -/
theorem fresh_step (hl : (line :: later).Pairwise (·.number < ·.number))
    (hp : s.pending = line :: later) (h : s.step line later = (es, .ok t)) :
    s.fresh = startedLines (callbacksOf es) ++ (s.joined line later ++ t.fresh) := by
  obtain ⟨more, hlater, hleft⟩ := leaves_step h
  have ht : t.fresh = more := by
    refine fresh_of_left (number_group_step h) (fun m hm => ?_) (hleft.imp_right ?_)
    · exact (List.pairwise_cons.mp hl).1 m (hlater ▸ List.mem_append_right _ hm)
    · rintro ⟨x, hx, hn, -⟩
      exact ⟨x, hx, hn⟩
  -- The fragment at the front is a line of its own just when it is entered as a new one.
  have hes : startedLines (callbacksOf es) =
      if s.group.map (·.number) = some line.number then [] else [line] := by
    simp only [step, Prod.mk.injEq] at h
    rw [← h.1, callbacksOf_append, startedLines_append, startedLines_dispatch, List.append_nil,
      startedLines_enter]
  rw [ht, ← hlater, hes, fresh, hp]
  simp only
  split <;> rfl

theorem pairwise_step (hl : (line :: later).Pairwise (·.number < ·.number))
    (h : s.step line later = (es, .ok t)) : t.pending.Pairwise (·.number < ·.number) := by
  obtain ⟨more, hlater, hleft⟩ := leaves_step h
  obtain ⟨hline, hpl⟩ := List.pairwise_cons.mp hl
  rw [hlater] at hline hpl
  have hmore := (List.pairwise_append.mp hpl).2.1
  rcases hleft with hp | ⟨x, hp, hn, -⟩
  · rwa [hp]
  · rw [hp, List.pairwise_cons, hn]
    exact ⟨fun m hm => hline m (List.mem_append_right _ hm), hmore⟩

/-! ## What a dispatch counts -/

theorem constructs_perform (s : State) (k : Construct) :
    (s.perform k).2.tally.constructs =
      s.tally.constructs + constructCount (callbacksOf (s.perform k).1) := by
  by_cases hk : k = .openBrace
  · -- What a brace reports is no construct.
    subst hk
    have hc : constructCount (callbacksOf (s.perform .openBrace).1) = 0 :=
      constructCount_eq_zero fun c hc =>
        Event.isConstruct_of_isBrace (isBrace_openBrace (s := s) c hc)
    rw [hc]
    unfold perform openBrace
    simp only
    split
    · rfl
    · split <;> rfl
  · rw [callbacksOf_perform hk]
    cases k with
    | linkage block | function _ block | constructor _ block | destructor _ block =>
      cases block <;> rfl
    | openBrace => exact absurd rfl hk
    | _ => rfl

theorem constructs_readEnum (line : SourceLine) (s : State) :
    (s.readEnum line).2.tally.constructs =
      s.tally.constructs + constructCount (callbacksOf (s.readEnum line).1) := by
  unfold readEnum
  simp only
  split <;> rfl

theorem constructs_unmatched (line : SourceLine) (s : State) :
    (s.unmatched line).2.tally.constructs = s.tally.constructs := by
  unfold unmatched
  split <;> rfl

theorem constructs_dispatch (h : s.dispatch line = (es, .ok t)) :
    t.tally.constructs = s.tally.constructs + constructCount (callbacksOf es) := by
  rcases dispatch_cases h with ⟨-, hu⟩ | ⟨rule, k, rest, fs, -, rfl, ha⟩
  · have ht := constructs_unmatched line s.countDispatched
    have hc : callbacksOf (s.countDispatched.unmatched line).1 = [] := callbacksOf_unmatched
    rw [hu] at ht hc
    rw [hc]
    exact ht
  · rw [callbacksOf_note]
    rcases act_cases ha with ⟨-, hr⟩ | ⟨-, gs, u, hc, rfl, rfl⟩ | ⟨-, -, rfl, rfl⟩
    · have ht := constructs_readEnum line s.countDispatched
      rwa [hr] at ht
    · have hu : u.tally = s.countDispatched.tally := tally_closeBrace hc
      rw [callbacksOf_append, callbacksOf_putBack, List.append_nil, constructCount_eq_zero
        fun c hm => Event.isConstruct_of_isBrace (isBrace_closeBrace hc c hm)]
      exact (congrArg Tally.constructs hu :)
    · rw [callbacksOf_append, callbacksOf_putBack, List.append_nil]
      exact constructs_perform s.countDispatched k

theorem merges_perform (s : State) (k : Construct) :
    (s.perform k).2.tally.merges = s.tally.merges := by
  unfold perform
  split <;> try rfl
  · split <;> rfl
  · unfold openBrace
    split
    · rfl
    · split <;> rfl

theorem merges_readEnum (line : SourceLine) (s : State) :
    (s.readEnum line).2.tally.merges =
      s.tally.merges + (gatherEnum 0 line.text s.pending).merges := by
  unfold readEnum
  simp only
  split <;> rfl

/-- The lines that a dispatch joins are counted, unless they continue a macro. -/
theorem merges_dispatch (h : s.dispatch line = (es, .ok t)) :
    t.tally.merges = s.tally.merges + (s.joinedTo false line s.pending).length := by
  rcases dispatch_cases h with ⟨hf, hu⟩ | ⟨rule, k, rest, fs, hf, -, ha⟩
  · have hj : s.joinedTo false line s.pending = s.pending.take 1 := by
      simp [joinedTo, definesMacro, joined, hf]
    rw [hj]
    unfold unmatched at hu
    rw [show s.countDispatched.pending = s.pending from rfl] at hu
    split at hu <;> cases hu
    · next hp => rw [hp]; rfl
    · next hp => rw [hp]; rfl
  · rcases act_cases ha with ⟨rfl, hr⟩ | ⟨rfl, gs, u, hc, -, rfl⟩ | ⟨h1, h2, -, rfl⟩
    · have ht := merges_readEnum line s.countDispatched
      rw [hr] at ht
      -- An enum counts no more lines than there are, also when it runs out of them.
      obtain ⟨n, hn, hle, -⟩ := suffix_gatherEnum 0 line.text s.pending
      rw [ht, joinedTo, definesMacro, joined, hf]
      simp only [if_true, List.length_take]
      rw [Nat.min_eq_left (by omega)]
      rfl
    · have hu : u.tally = s.countDispatched.tally := tally_closeBrace hc
      have hj : s.joinedTo false line s.pending = [] := by
        simp [joinedTo, definesMacro, joined, hf]
      rw [hj]
      exact (congrArg Tally.merges hu :)
    · have hj : s.joinedTo false line s.pending = [] := by
        cases k with
        | enumHead => exact absurd rfl h1
        | _ => simp [joinedTo, definesMacro, joined, hf]
      rw [hj]
      exact merges_perform s.countDispatched k

theorem constructCount_enter (line : SourceLine) (s : State) :
    constructCount (callbacksOf (s.enter line).1) = 0 := by
  unfold enter
  split
  · rfl
  · cases s.group <;> rfl

/-- What a step counts: the constructs that it reports, and the lines that it joins to anything but
a macro. -/
theorem counts_step (h : s.step line later = (es, .ok t)) :
    t.tally.constructs = s.tally.constructs + constructCount (callbacksOf es) ∧
      t.tally.merges = s.tally.merges + (s.joinedTo false line later).length := by
  simp only [step, Prod.mk.injEq] at h
  obtain ⟨rfl, ht⟩ := h
  obtain ⟨-, hp, htally⟩ := enter_fields line { s with pending := later }
  have hj : joinedTo false line later ({ s with pending := later }.enter line).2 =
      s.joinedTo false line later := by
    simp only [joinedTo, definesMacro, joined, found?_enter]
    rfl
  have hd : dispatch line ({ s with pending := later }.enter line).2 = (_, .ok t) := Prod.ext rfl ht
  have hc := constructs_dispatch hd
  have hm := merges_dispatch hd
  rw [htally] at hc hm
  rw [hp, hj] at hm
  refine ⟨?_, hm⟩
  rw [hc, callbacksOf_append, constructCount_append, constructCount_enter, Nat.zero_add]

/-! ## Whole courses -/

theorem constructs_of_reads (h : Reads s es t) :
    t.tally.constructs = s.tally.constructs + constructCount (callbacksOf es) := by
  induction h with
  | refl => rfl
  | next _ hs _ ih =>
    rw [ih, (counts_step hs).1, callbacksOf_append, constructCount_append, Nat.add_assoc]

theorem merges_of_reads (h : Reads s es t) (ht : t.pending = []) :
    t.tally.merges = s.tally.merges + (s.linesJoinedTo false).length := by
  induction h with
  | refl => rw [linesJoinedTo_of_pending_nil false ht]; rfl
  | next hp hs _ ih =>
    rw [ih ht, (counts_step hs).2, linesJoinedTo_of_step false hp hs, List.length_append,
      Nat.add_assoc]

/-- Every line still to come is begun once or joined once by the time that no line is pending. -/
theorem lines_of_reads (h : Reads s es t) (ht : t.pending = [])
    (hl : s.pending.Pairwise (·.number < ·.number)) :
    s.fresh.Perm (startedLines (callbacksOf es) ++
      (s.linesJoinedTo false ++ s.linesJoinedTo true)) := by
  induction h with
  | refl => simp [fresh, ht, linesJoinedTo_of_pending_nil, startedLines]
  | @next s t u line later es fs hp hs _ ih =>
    rw [hp] at hl
    have hperm := ih ht (pairwise_step hl hs)
    rw [fresh_step hl hp hs, ← joinedTo_append, linesJoinedTo_of_step false hp hs,
      linesJoinedTo_of_step true hp hs, callbacksOf_append, startedLines_append]
    refine List.perm_iff_count.mpr fun x => ?_
    have hx := List.perm_iff_count.mp hperm x
    simp only [List.count_append] at hx ⊢
    omega

/-- A step reports at most one construct, so there are no more of them than dispatches. -/
theorem constructs_le_of_reads (h : Reads s es t) :
    t.tally.constructs + s.tally.dispatched ≤ s.tally.constructs + t.tally.dispatched := by
  induction h with
  | refl => exact Nat.le_refl _
  | @next _ _ _ _ _ es _ _ hs _ ih =>
    have hc := (counts_step hs).1
    have hd := (tally_step hs).1
    have hle : constructCount (callbacksOf es) ≤ 1 := by
      refine (constructCount_le_calls es).trans ?_
      rcases (move_step hs).calls_cases with hcalls | ⟨c, hcalls⟩ <;> rw [hcalls]
      · exact Nat.zero_le 1
      · exact Nat.le_refl 1
    omega

end State

/-! ## The length of the text -/

namespace SourceLine

theorem length_strip_le (m : Mode) (cs : List Char) : (strip m cs).1.length ≤ cs.length := by
  fun_induction strip m cs <;> simp_all <;> omega

/-- The text that is left of a line is no longer than the line. -/
theorem length_trim_strip_le (m : Mode) (l : List Char) : (trim (strip m l).1).length ≤ l.length :=
  (((trimEnd_front _).length_le).trans (length_trimStart_le _)).trans (length_strip_le m l)

theorem length_dropEnd_newline (l : List Char) : (dropEnd (l ++ ['\n'])).length ≤ l.length := by
  simp only [dropEnd, List.getLast?_concat, if_true, List.dropLast_concat]
  split
  · exact (List.dropLast_prefix l).length_le
  · exact Nat.le_refl _

/-- A line in front adds its text and two, if it has text. -/
theorem weight_ofLines_cons (m : Mode) (n : Nat) (l : List Char) (ls : List (List Char)) :
    ∃ k, 2 * weight (ofLines m n (l :: ls)) ≤
      3 * (l.length + 1) + 2 * weight (ofLines k (n + 1) ls) := by
  have hlen := length_trim_strip_le m l
  refine ⟨(strip m l).2.nextLine, ?_⟩
  simp only [ofLines]
  split
  · omega
  · next hne =>
    have hpos : 0 < (trim (strip m l).1).length :=
      List.length_pos_iff.mpr (by simpa using hne)
    rw [weight_cons]
    simp only
    omega

/-- Lines with text weigh at most three halves of the text, and of one more character for the line
feed that the last line may lack. -/
theorem weight_ofLines_le {ls : List (List Char)} (h : RawLines ls) (m : Mode) (n : Nat) :
    2 * weight (ofLines m n (ls.map dropEnd)) ≤ 3 * (ls.flatten.length + 1) := by
  induction h generalizing m n with
  | nil => exact Nat.zero_le _
  | @last l hb =>
    obtain ⟨k, hk⟩ := weight_ofLines_cons m n l []
    rw [List.map_singleton, dropEnd_of_noBreak hb, List.flatten_singleton]
    exact hk
  | @line l ls _ _ ih =>
    obtain ⟨k, hk⟩ := weight_ofLines_cons m n (dropEnd (l ++ ['\n'])) (ls.map dropEnd)
    have hl := length_dropEnd_newline l
    have hls := ih k (n + 1)
    simp only [List.map_cons, List.flatten_cons, List.length_append, List.length_singleton]
    omega

theorem weight_ofSource_le (source : String) :
    2 * weight (ofSource source.toList) ≤ 3 * (source.utf8ByteSize + 1) := by
  have h := weight_ofLines_le (rawLines_are source.toList) .code 1
  have hlen := length_le_utf8ByteSize source.toList
  rw [flatten_rawLines] at h
  rw [String.ofList_toList] at hlen
  rw [ofSource, lines]
  omega

theorem two_mul_length_le_weight (ls : List SourceLine) : 2 * ls.length ≤ weight ls := by
  induction ls with
  | nil => exact Nat.le_refl _
  | cons l ls ih => rw [weight_cons, List.length_cons]; omega

end SourceLine

/-! ## Whole headers -/

open State

/-- The lines of a header that are joined to a fragment or to an enum. -/
def mergedLines (source : String) : List SourceLine :=
  (startOf source).linesJoinedTo false

def continuedLines (source : String) : List SourceLine :=
  (startOf source).linesJoinedTo true

/-- The counts of a finished reading, told by what was put out and by what became of the lines. -/
structure Accounted (source : String) (f : Finished) : Prop where
  /-- As many constructs are counted as are reported. -/
  constructs : f.summary.constructs = constructCount (parse source).callbacks
  /-- The summary and the counts agree. -/
  summary : f.summary.constructs = f.tally.constructs
  /-- Whoever collects the callbacks has an item for each construct. -/
  collected : f.summary.constructs = (Outline.ofCallbacks (parse source).callbacks).size
  /-- Each line is begun, joined to a fragment or an enum, or joined to a macro. -/
  lines : (SourceLine.ofSource source.toList).Perm
    (startedLines (parse source).callbacks ++ (mergedLines source ++ continuedLines source))
  /-- None of this happens twice, or two of it to one line. -/
  once : (startedLines (parse source).callbacks ++
    (mergedLines source ++ continuedLines source)).Nodup
  /-- The lines that continue a macro are not counted as joined. -/
  merges : f.tally.merges = (mergedLines source).length
  /-- What is begun, joined, and joined to macros is all that is read. -/
  linesRead : f.linesRead = (startedLines (parse source).callbacks).length + f.tally.merges +
    (continuedLines source).length

/-- At the end of a reading no line is begun and no construct reported. -/
theorem counts_close (s : State) :
    startedLines (callbacksOf s.close) = [] ∧ constructCount (callbacksOf s.close) = 0 := by
  rw [callbacksOf_close, ended]
  cases s.group <;> exact ⟨rfl, rfl⟩

theorem fresh_startOf (source : String) :
    (startOf source).fresh = SourceLine.ofSource source.toList := by
  rw [fresh, startOf, start]
  cases SourceLine.ofSource source.toList <;> rfl

/-- A header that is read to its end is read along a course, and outside of it no line is begun and
no construct reported. -/
theorem exists_reads_of_result {source : String} {f : Finished}
    (h : (parse source).result = .ok f) :
    ∃ es t, Reads (startOf source) es t ∧ t.pending = [] ∧ f.tally = t.tally ∧
      f.summary.constructs = t.tally.constructs ∧
      f.linesRead = (SourceLine.ofSource source.toList).length ∧
      startedLines (parse source).callbacks = startedLines (callbacksOf es) ∧
      constructCount (parse source).callbacks = constructCount (callbacksOf es) := by
  obtain ⟨es, t, hr, ht | ⟨line, later, fs, e, hp, hs⟩⟩ := exists_reads (startOf source)
  · obtain ⟨hc, -, hok⟩ := parse_of_run (run_of_reads hr ht)
    obtain rfl := Except.ok.inj ((hok t rfl).symm.trans h)
    obtain ⟨h1, h2⟩ := counts_close t
    refine ⟨es, t, hr, ht, rfl, rfl, rfl, ?_, ?_⟩
    · rw [hc, ← List.singleton_append, callbacksOf_append, startedLines_append,
        startedLines_append, h1, List.append_nil]
      rfl
    · rw [hc, ← List.singleton_append, callbacksOf_append, constructCount_append,
        constructCount_append, h2, Nat.add_zero]
      exact Nat.zero_add _
  · obtain ⟨-, herr, -⟩ := parse_of_run (run_of_reads_error hr hp hs)
    rw [herr e rfl] at h
    cases h

theorem accounted_of_result {source : String} {f : Finished}
    (h : (parse source).result = .ok f) : Accounted source f := by
  obtain ⟨es, t, hr, ht, hf, hsum, hread, hstart, hcount⟩ := exists_reads_of_result h
  have hl : (startOf source).pending.Pairwise (·.number < ·.number) :=
    SourceLine.pairwise_ofLines ..
  have hc : t.tally.constructs = constructCount (callbacksOf es) := by
    rw [constructs_of_reads hr]
    exact Nat.zero_add _
  have hm : t.tally.merges = (mergedLines source).length := by
    rw [merges_of_reads hr ht]
    exact Nat.zero_add _
  have hperm := lines_of_reads hr ht hl
  rw [fresh_startOf, ← hstart] at hperm
  have hlen := hperm.length_eq
  simp only [List.length_append] at hlen
  exact
    { constructs := by rw [hsum, hc, hcount]
      summary := by rw [hsum, hf]
      collected := by rw [hsum, hc, ← hcount, Outline.size_ofCallbacks]; rfl
      lines := hperm
      once := hperm.nodup_iff.mp (hl.imp fun hlt heq => by rw [heq] at hlt; omega)
      merges := by rw [hf, hm]
      linesRead := by rw [hread, hlen, hf, hm, Nat.add_assoc]; rfl }

/-- The counts fit in a word of 64 bits when the text is as short as texts are. -/
theorem counts_lt_of_result {source : String} {f : Finished} (h : (parse source).result = .ok f)
    (hs : source.utf8ByteSize < 2 ^ 63) :
    f.summary.constructs < 2 ^ 64 ∧ f.linesRead < 2 ^ 64 ∧ f.tally.merges < 2 ^ 64 := by
  obtain ⟨es, t, hr, -, -, hsum, hread, -, -⟩ := exists_reads_of_result h
  have hw := SourceLine.weight_ofSource_le source
  have hlen := SourceLine.two_mul_length_le_weight (SourceLine.ofSource source.toList)
  have hd := dispatched_of_reads hr
  have hc := constructs_le_of_reads hr
  have hm := (accounted_of_result h).linesRead
  have h0 : (startOf source).tally = ⟨0, 0, 0, 0⟩ := rfl
  have hp : (startOf source).pending = SourceLine.ofSource source.toList := rfl
  rw [h0] at hd hc
  rw [hp] at hd
  simp only at hd hc
  omega

/-- When a header is read to its end, the constructs of its summary are those that were reported and
those that an outline collects; every line with text has been begun, joined to what stood before it,
or joined to a macro, and exactly one of these; and the metrics grow by just these counts. Over a
session that has read nothing else they are these counts, which do not wrap. -/
theorem metrics_accounted {source : String} {f : Finished} (h : (parse source).result = .ok f) :
    Accounted source f ∧
      (∀ s : Session, (s.read source).metrics.constructsRecognized =
          s.metrics.constructsRecognized + f.summary.constructs.toUInt64 ∧
        (s.read source).metrics.linesRead = s.metrics.linesRead + f.linesRead.toUInt64 ∧
        (s.read source).metrics.lineMerges = s.metrics.lineMerges + f.tally.merges.toUInt64) ∧
      (source.utf8ByteSize < 2 ^ 63 → ∀ s : Session, s.metrics = .zero →
        (s.read source).metrics.constructsRecognized.toNat = f.summary.constructs ∧
        (s.read source).metrics.linesRead.toNat = f.linesRead ∧
        (s.read source).metrics.lineMerges.toNat = f.tally.merges) := by
  have ha := accounted_of_result h
  have hread : ∀ s : Session, (s.read source).metrics = s.metrics.merge (.ofFinished f) :=
    fun s => by simp only [Session.read, Session.record, h]
  refine ⟨ha, fun s => ?_, fun hs s hz => ?_⟩
  · rw [hread, ha.summary]
    exact ⟨rfl, rfl, rfl⟩
  · obtain ⟨h1, h2, h3⟩ := counts_lt_of_result h hs
    rw [ha.summary] at h1 ⊢
    rw [hread, hz]
    simp only [Metrics.merge, Metrics.zero, Metrics.ofFinished, UInt64.zero_add]
    exact ⟨UInt64.toNat_ofNat_of_lt' h1, UInt64.toNat_ofNat_of_lt' h2, UInt64.toNat_ofNat_of_lt' h3⟩

theorem metrics_accounted_windingHeader :
    (parse windingHeader).result = .ok ⟨⟨7, 4, 0⟩, ⟨6, 4, 3, 1⟩, 7⟩ ∧
      Accounted windingHeader ⟨⟨7, 4, 0⟩, ⟨6, 4, 3, 1⟩, 7⟩ ∧
      (startedLines (parse windingHeader).callbacks).map (·.number) = [1, 3, 7] ∧
      (mergedLines windingHeader).map (·.number) = [4, 5, 6] ∧
      (continuedLines windingHeader).map (·.number) = [2] ∧
      ((Session.start .quiet).read windingHeader).metrics.linesRead.toNat = 3 + 3 + 1 := by
  have h : (parse windingHeader).result = .ok ⟨⟨7, 4, 0⟩, ⟨6, 4, 3, 1⟩, 7⟩ := by decide +kernel
  obtain ⟨ha, -, hm⟩ := metrics_accounted h
  refine ⟨h, ha, by decide +kernel, by decide +kernel, by decide +kernel, ?_⟩
  exact (hm (by decide +kernel) (.start .quiet) rfl).2.1

end HeaderOutline
