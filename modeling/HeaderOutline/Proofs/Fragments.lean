import HeaderOutline.Proofs.LineGroups
/-!
# Fragments

Every text that is dispatched comes from lines of the header that stand in a row: it is what is left
of one line, under whose number it goes, and of the lines that were joined to it. `Remnant` says so
of a text and the lines that are pending behind it; `State.joined` tells which of these its dispatch
joins. A reading takes one course, so of two of its states one comes first.

Results:
* `remnant_of_reads`: every text that is dispatched is a fragment.
* `reads_total`: two states of a course follow one another.
* `exists_reads_before`: a line that is not joined to another comes to the front as it stands.
* `exists_step_of_mem_callbacks`: every construct is reported by a dispatch, under its number.
-/
namespace HeaderOutline
open Text

/-- The text of some lines in one, with a blank between them. -/
def joinedText : List SourceLine → List Char
  | [] => []
  | l :: ls => withLines l.text ls

theorem joinedText_append {ls : List SourceLine} (h : ls ≠ []) (ms : List SourceLine) :
    joinedText (ls ++ ms) = withLines (joinedText ls) ms := by
  cases ls with
  | nil => exact absurd rfl h
  | cons l ls => exact withLines_append ..

/-- What is joined to an end of a text makes an end of what is joined to the text. -/
theorem suffix_withLines {as bs : List Char} (h : as <:+ bs) (ls : List SourceLine) :
    withLines as ls <:+ withLines bs ls := by
  induction ls generalizing as bs with
  | nil => exact h
  | cons l ls ih =>
    obtain ⟨lead, rfl⟩ := h
    exact ih ⟨lead, (List.append_assoc ..).symm⟩

/-- The text `line`, behind which `later` is pending, is what is left of the lines `ls`. -/
structure Remnant (lines : List SourceLine) (line : SourceLine)
    (later ls : List SourceLine) : Prop where
  /-- The lines stand in a row, and the pending ones follow. -/
  suffix : ls ++ later <:+ lines
  number : ls.head?.map (·.number) = some line.number
  text : line.text <:+ joinedText ls

theorem requeue_cases (number : Nat) (rest : List Char) (more : List SourceLine) :
    requeue number rest more = more ∨
      ∃ x, requeue number rest more = x :: more ∧ x.number = number ∧ x.text <:+ rest := by
  unfold requeue
  simp only
  split
  · exact .inl rfl
  · exact .inr ⟨_, rfl, rfl, trimStart_suffix rest⟩

namespace State

variable {a s t u : State} {line : SourceLine} {later : List SourceLine} {es fs : List Entry}

/-! ## The lines that a dispatch joins -/

/-- The lines that the dispatch of `line` joins to it, the first ones of `later`. -/
def joined (line : SourceLine) (later : List SourceLine) (s : State) : List SourceLine :=
  match s.found? line with
  | none => later.take 1
  | some (_, .enumHead, _) => later.take (gatherEnum 0 line.text later).merges
  | some (_, .define _ value, _) => later.take (later.length - (joinLines value later).2.length)
  | some _ => []

theorem joined_front (line : SourceLine) (later : List SourceLine) (s : State) :
    s.joined line later <+: later := by
  unfold joined
  split <;> first | exact List.take_prefix _ _ | exact List.nil_prefix

/-- What stays pending: the lines behind the joined ones, and in front of them at most a rest of
the fragment under its number. -/
def Leaves (line : SourceLine) (later joined pending : List SourceLine) : Prop :=
  ∃ more, later = joined ++ more ∧ (pending = more ∨
    ∃ x, pending = x :: more ∧ x.number = line.number ∧ x.text <:+ withLines line.text joined)

theorem leaves_requeue (line : SourceLine) (later : List SourceLine) {rest : List Char} (n : Nat)
    (h : rest <:+ withLines line.text (later.take n)) :
    Leaves line later (later.take n) (requeue line.number rest (later.drop n)) := by
  refine ⟨later.drop n, (List.take_append_drop n later).symm, ?_⟩
  rcases requeue_cases line.number rest (later.drop n) with hr | ⟨x, hx, hn, ht⟩
  · exact .inl hr
  · exact .inr ⟨x, hx, hn, ht.trans h⟩

theorem leaves_act {rule : Rule} {k : Construct} {rest : List Char}
    (hf : s.found? line = some (rule, k, rest))
    (h : s.countDispatched.act line rest k = (es, .ok t)) :
    Leaves line s.pending (s.joined line s.pending) t.pending := by
  have hp : t.pending = leftLines line s.pending rest k := pending_act (s := s.countDispatched) h
  obtain ⟨-, hr⟩ := Rule.recognize?_of_match? hf
  rw [hp, joined, hf]
  cases k with
  | enumHead =>
    obtain ⟨n, hn, -, hg, hrest⟩ := suffix_gatherEnum 0 line.text s.pending
    rw [Nat.zero_add] at hn
    simp only [leftLines, hn, hg]
    exact leaves_requeue _ _ n hrest
  | define name value =>
    obtain rfl := Rule.eq_nil_of_define hr
    have hj := List.suffix_iff_eq_drop.mp (suffix_joinLines value s.pending)
    have hl := leaves_requeue line s.pending
      (s.pending.length - (joinLines value s.pending).2.length) List.nil_suffix
    rw [← hj] at hl
    exact hl
  | _ => exact leaves_requeue _ _ 0 (Rule.suffix_of_match? hf)

theorem leaves_dispatch (h : s.dispatch line = (es, .ok t)) :
    Leaves line s.pending (s.joined line s.pending) t.pending := by
  rcases dispatch_cases h with ⟨hf, hu⟩ | ⟨rule, k, rest, fs, hf, -, ha⟩
  · have hc : s.countDispatched.pending = s.pending := rfl
    rw [joined, hf]
    unfold unmatched at hu
    rw [hc] at hu
    cases hp : s.pending with
    | nil =>
      rw [hp] at hu
      cases hu
      exact ⟨[], rfl, .inl hp⟩
    | cons next more =>
      rw [hp] at hu
      cases hu
      exact ⟨more, rfl, .inr ⟨_, rfl, rfl, List.suffix_refl _⟩⟩
  · exact leaves_act hf ha

theorem line_enter (line : SourceLine) (s : State) : (s.enter line).2.line = line.number := by
  unfold enter
  split
  · next hn => rw [State.line, hn]; rfl
  · rfl

/-- A step dispatches its text once the line has been entered, and nothing else it does reports a
construct. -/
theorem exists_dispatch_of_step {r : Except UnbalancedBrace State}
    (h : s.step line later = (es, r)) :
    ∃ (v : State) (as fs : List Entry), v.dispatch line = (fs, r) ∧ es = as ++ fs ∧
      calls as = [] ∧ v.pending = later ∧ v.scopes = s.scopes ∧ v.line = line.number ∧
      v.found? line = s.found? line := by
  simp only [step, Prod.mk.injEq] at h
  obtain ⟨rfl, rfl⟩ := h
  exact ⟨_, _, _, rfl, rfl, calls_enter .., pending_enter .., scopes_enter .., line_enter ..,
    found?_enter ..⟩

theorem leaves_step (h : s.step line later = (es, .ok t)) :
    Leaves line later (s.joined line later) t.pending := by
  obtain ⟨v, as, fs, hd, -, -, hp, -, -, hf⟩ := exists_dispatch_of_step h
  have hl := leaves_dispatch hd
  rwa [hp, joined, hf, ← joined] at hl

theorem pending_step {rule : Rule} {k : Construct} {rest : List Char}
    (h : s.step line later = (es, .ok t)) (hf : s.found? line = some (rule, k, rest)) :
    t.pending = leftLines line later rest k := by
  obtain ⟨v, as, fs, hd, -, -, hp, -, -, hv⟩ := exists_dispatch_of_step h
  rw [← hv] at hf
  rcases dispatch_cases hd with ⟨hm, -⟩ | ⟨rule', k', rest', gs, hm, -, ha⟩
  · rw [hf] at hm
    cases hm
  · rw [hf] at hm
    cases hm
    have hleft := pending_act ha
    rwa [show v.countDispatched.pending = later from hp] at hleft

/-! ## Courses -/

/-- What a course from `a` begins with and what each of its steps keeps holds all along. -/
theorem Reads.invariant {p : State → Prop} (h : Reads a es u) (ha : p a)
    (hstep : ∀ {s t line later es fs}, Reads a es s → s.pending = line :: later →
      s.step line later = (fs, .ok t) → p s → p t) : p u := by
  induction h with
  | refl => exact ha
  | next hp hs _ ih => exact ih (hstep (.refl _) hp hs ha) fun hr => hstep (.next hp hs hr)

/-- A course has one way to go. -/
theorem reads_total (h : Reads a es s) (h' : Reads a fs t) :
    (∃ gs, Reads s gs t) ∨ ∃ gs, Reads t gs s := by
  induction h generalizing fs with
  | refl => exact .inl ⟨fs, h'⟩
  | next hp hs hr ih =>
    cases h' with
    | refl => exact .inr ⟨_, .next hp hs hr⟩
    | next hp' hs' hr' =>
      rw [hp] at hp'
      cases hp'
      rw [hs] at hs'
      cases hs'
      exact ih hr'

theorem weight_of_reads (h : Reads s es t) : s = t ∨ weight t.pending < weight s.pending := by
  induction h with
  | refl => exact .inl rfl
  | next hp hs _ ih =>
    have hlt := weight_step (by rw [hs])
    rw [← hp] at hlt
    rcases ih with rfl | ih
    · exact .inr hlt
    · exact .inr (by omega)

/-- Somewhere in the course from `a` the line is joined to another one. -/
def JoinedFrom (a : State) (l : SourceLine) : Prop :=
  ∃ es s line later, Reads a es s ∧ s.pending = line :: later ∧ l ∈ s.joined line later

/-- Every text that a course comes to is a fragment of the lines that it began with. All but the
first of its lines have been joined. -/
theorem remnant_of_reads (h : Reads a es s) (hp : s.pending = line :: later) :
    ∃ ls, Remnant a.pending line later ls ∧ ∀ l ∈ ls.tail, JoinedFrom a l := by
  have hfirst : ∀ {x : SourceLine} {more : List SourceLine}, x :: more <:+ a.pending →
      ∃ ls, Remnant a.pending x more ls ∧ ∀ l ∈ ls.tail, JoinedFrom a l := fun {x more} hs =>
    ⟨[x], ⟨hs, rfl, List.suffix_refl _⟩, fun l hl => by cases hl⟩
  refine h.invariant (p := fun s => ∀ line later, s.pending = line :: later →
    ∃ ls, Remnant a.pending line later ls ∧ ∀ l ∈ ls.tail, JoinedFrom a l)
    (fun line later hp => hfirst (hp ▸ List.suffix_refl _)) ?_ line later hp
  intro s t line later es fs hr hp hs ih x more hx
  obtain ⟨ls, hls, htail⟩ := ih line later hp
  obtain ⟨left, hlater, hleft | ⟨y, hy, hn, ht⟩⟩ := leaves_step hs
  · have hsuf := hls.suffix
    rw [hlater, ← hleft, hx, ← List.append_assoc] at hsuf
    exact hfirst ((List.suffix_append ..).trans hsuf)
  · rw [hx] at hy
    obtain ⟨rfl, rfl⟩ := List.cons.inj hy
    obtain ⟨g, js, rfl⟩ : ∃ g js, ls = g :: js := by
      cases ls with
      | nil => cases hls.number
      | cons g js => exact ⟨g, js, rfl⟩
    refine ⟨g :: js ++ s.joined line later, ⟨?_, ?_, ?_⟩, ?_⟩
    · rw [List.append_assoc, ← hlater]
      exact hls.suffix
    · rw [hn]
      exact hls.number
    · rw [joinedText_append (by simp)]
      exact ht.trans (suffix_withLines hls.text _)
    · intro l hl
      rcases List.mem_append.mp hl with hl | hl
      · exact htail l hl
      · exact ⟨_, s, line, later, hr, hp, hl⟩

/-- A line that is pending and is joined to no other comes to the front as it stands, unless the
course ends before. -/
theorem exists_reads_before {l : SourceLine} {behind : List SourceLine} (h : Reads a es t)
    (hl : l :: behind <:+ a.pending) (hj : ¬ JoinedFrom a l) :
    (∃ fs s, Reads a fs s ∧ s.pending = l :: behind) ∨
      ∃ line later, t.pending = line :: later ∧ l :: behind <:+ later := by
  have hcases : ∀ {s : State}, l :: behind <:+ s.pending → s.pending = l :: behind ∨
      ∃ line later, s.pending = line :: later ∧ l :: behind <:+ later := fun {s} hs => by
    cases hp : s.pending with
    | nil => rw [hp] at hs; exact absurd (List.suffix_nil.mp hs) (by simp)
    | cons line later =>
      rw [hp] at hs
      rcases List.suffix_cons_iff.mp hs with heq | hs
      · exact .inl heq.symm
      · exact .inr ⟨line, later, rfl, hs⟩
  refine h.invariant (p := fun t => (∃ fs s, Reads a fs s ∧ s.pending = l :: behind) ∨
    ∃ line later, t.pending = line :: later ∧ l :: behind <:+ later) ?_ ?_
  · exact (hcases hl).imp_left fun hp => ⟨_, a, .refl a, hp⟩
  · intro s t line later es fs hr hp hs ih
    refine ih.elim .inl fun ⟨line', later', hp', hl'⟩ => ?_
    rw [hp] at hp'
    obtain ⟨rfl, rfl⟩ := List.cons.inj hp'
    obtain ⟨more, hlater, hleft⟩ := leaves_step hs
    have hmore : l :: behind <:+ more := by
      obtain ⟨before, hbefore⟩ := hl'
      rcases List.append_eq_append_iff.mp (hbefore.trans hlater) with ⟨ms, hms, heq⟩ | ⟨ms, -, heq⟩
      · cases ms with
        | nil => exact heq ▸ List.suffix_refl _
        | cons m ms =>
          -- The line would be one of those that are joined.
          obtain ⟨rfl, -⟩ := List.cons.inj heq
          exact absurd ⟨_, s, line, later, hr, hp, hms ▸ by simp⟩ hj
      · exact ⟨ms, heq.symm⟩
    have ht : l :: behind <:+ t.pending := by
      rcases hleft with hleft | ⟨x, hx, -⟩
      · exact hleft ▸ hmore
      · exact hx ▸ hmore.trans (List.suffix_cons x more)
    exact (hcases ht).imp_left fun hp' => ⟨_, t, hr.trans (.one hp hs), hp'⟩

end State

/-! ## Callbacks -/

/-- The event that a construct is reported by, unless that depends on the scopes or on the rest of
an enum. -/
def Construct.event? (later : List SourceLine) : Construct → Option Event
  | .define name value => some (.define ⟨name, String.ofList (State.joinLines value later).1⟩)
  | .nameSpace name => some (.nameSpace name)
  | .classHead head => some (.classHead head)
  | .function f true => some (.functionDecl f)
  | .function f false => some (.functionDef f)
  | .constructor c true => some (.constructorDecl c.name c.params)
  | .constructor c false => some (.constructorDef c.name c.params)
  | .destructor name true => some (.destructorDecl name)
  | .destructor name false => some (.destructorDef name)
  | .directive | .access _ | .linkage _ | .enumHead | .openBrace | .closeBrace | .statement => none

def Event.isBrace : Event → Bool
  | .nameSpaceStart _ | .nameSpaceEnd _ | .classStart _ | .classEnd _ => true
  | _ => false

theorem mem_calls_of_mem_callbacksOf {es : List Entry} {c : Callback} (hc : c ∈ callbacksOf es)
    (hk : c.event.isStructural = true) : (c.event, c.scopes) ∈ calls es := by
  induction es with
  | nil => cases hc
  | cons e es ih =>
    cases e with
    | note n => exact ih hc
    | callback d =>
      rcases List.mem_cons.mp (show c ∈ d :: callbacksOf es from hc) with rfl | hc
      · simp [calls, Entry.call?, hk]
      · rw [← List.singleton_append, calls_append]
        exact List.mem_append_right _ (ih hc)

namespace State

variable {a s t : State} {line : SourceLine} {later : List SourceLine} {es : List Entry}

theorem callbacksOf_perform {k : Construct} (hk : k ≠ .openBrace) :
    callbacksOf (s.perform k).1 =
      (k.event? s.pending).toList.map (⟨·, s.line, s.scopes⟩) := by
  cases k with
  | openBrace => exact absurd rfl hk
  | function _ terminated | constructor _ terminated | destructor _ terminated =>
    cases terminated <;> rfl
  | _ => rfl

theorem isBrace_openBrace : ∀ c ∈ callbacksOf s.openBrace.1, c.event.isBrace = true := by
  unfold openBrace
  split
  · simp
  · next f fs _ =>
    split
    · simp
    · cases f <;> simp [startEvent?, Event.isBrace]

theorem isBrace_closeBrace {number : Nat} (h : s.closeBrace number = (es, .ok t)) :
    ∀ c ∈ callbacksOf es, c.event.isBrace = true := by
  intro c hc
  have hk := (isWithin_closeBrace number c (by rw [h]; exact hc)).1
  have hcall := mem_calls_of_mem_callbacksOf hc hk
  unfold closeBrace at h
  simp only at h
  split at h
  · cases h
  · next f fs _ =>
    simp only [Prod.mk.injEq, Except.ok.injEq] at h
    obtain ⟨rfl, -⟩ := h
    rw [calls_append, calls_dropped] at hcall
    cases f <;> simp [endEvent?, Event.isStructural] at hcall <;> simp [hcall, Event.isBrace]

/-- What is reported upon a match: the construct, an enum, or a brace. -/
theorem event_of_mem_act {rest : List Char} {k : Construct} (h : s.act line rest k = (es, .ok t))
    {c : Callback} (hc : c ∈ callbacksOf es) :
    k.event? s.pending = some c.event ∨ (∃ d, c.event = .enum d) ∨ c.event.isBrace = true := by
  rcases act_cases h with ⟨-, hr⟩ | ⟨-, fs, u, hclose, rfl, -⟩ | ⟨-, -, rfl, -⟩
  · unfold readEnum at hr
    simp only at hr
    split at hr <;> cases hr
    · rw [List.mem_singleton.mp hc]
      exact .inr (.inl ⟨_, rfl⟩)
    · cases hc
    · cases hc
  · rw [callbacksOf_append, callbacksOf_putBack, List.append_nil] at hc
    exact .inr (.inr (isBrace_closeBrace hclose c hc))
  · rw [callbacksOf_append, callbacksOf_putBack, List.append_nil] at hc
    by_cases hk : k = .openBrace
    · rw [hk] at hc
      exact .inr (.inr (isBrace_openBrace c hc))
    · rw [callbacksOf_perform hk, List.mem_map] at hc
      obtain ⟨e, he, rfl⟩ := hc
      exact .inl (Option.mem_toList.mp he)

/-- A match that reads no enum and no brace reports its construct. -/
theorem calls_step {rule : Rule} {k : Construct} {rest : List Char}
    (h : s.step line later = (es, .ok t)) (hf : s.found? line = some (rule, k, rest))
    (hk : k ≠ .enumHead ∧ k ≠ .closeBrace ∧ k ≠ .openBrace) :
    calls es = (k.event? later).toList.map (·, s.scopes) := by
  obtain ⟨v, as, fs, hd, rfl, has, hp, hsc, -, hv⟩ := exists_dispatch_of_step h
  rw [← hv] at hf
  rcases dispatch_cases hd with ⟨hm, -⟩ | ⟨rule', k', rest', gs, hm, rfl, ha⟩
  · rw [hf] at hm
    cases hm
  · rw [hf] at hm
    cases hm
    rcases act_cases ha with ⟨he, -⟩ | ⟨he, -⟩ | ⟨-, -, rfl, -⟩
    · exact absurd he hk.1
    · exact absurd he hk.2.1
    · rw [calls_append, has, calls_note, calls_append, calls_putBack, List.append_nil,
        List.nil_append, ← hsc, ← hp]
      cases k with
      | openBrace => exact absurd rfl hk.2.2
      | function _ terminated | constructor _ terminated | destructor _ terminated =>
        cases terminated <;> rfl
      | _ => rfl

/-- What a step reports goes under the number of its text, and was matched in it. -/
theorem found?_of_mem_step (h : s.step line later = (es, .ok t)) {c : Callback}
    (hc : c ∈ callbacksOf es) (hk : c.event.isStructural = true) :
    c.line = line.number ∧ ∃ rule k rest, s.found? line = some (rule, k, rest) ∧
      (k.event? later = some c.event ∨ (∃ d, c.event = .enum d) ∨ c.event.isBrace = true) := by
  obtain ⟨v, as, fs, hd, rfl, has, hp, -, hn, hv⟩ := exists_dispatch_of_step h
  have hfs : c ∈ callbacksOf fs := by
    rw [callbacksOf_append, List.mem_append] at hc
    refine hc.resolve_left fun hc => ?_
    have hcall := mem_calls_of_mem_callbacksOf hc hk
    rw [has] at hcall
    cases hcall
  have hwithin := isWithin_dispatch line v c (by rw [hd]; exact hfs)
  refine ⟨hwithin.2.trans hn, ?_⟩
  rcases dispatch_cases hd with ⟨-, hu⟩ | ⟨rule, k, rest, gs, hm, rfl, ha⟩
  · have hnone : callbacksOf (v.countDispatched.unmatched line).1 = [] := callbacksOf_unmatched
    rw [hu] at hnone
    rw [hnone] at hfs
    cases hfs
  · rw [callbacksOf_note] at hfs
    have he := event_of_mem_act ha hfs
    rw [show v.countDispatched.pending = later from hp] at he
    exact ⟨rule, k, rest, hv.symm.trans hm, he⟩

theorem exists_step_of_mem_reads (h : Reads a es t) {c : Callback} (hc : c ∈ callbacksOf es) :
    ∃ fs s line later gs u, Reads a fs s ∧ s.pending = line :: later ∧
      s.step line later = (gs, .ok u) ∧ c ∈ callbacksOf gs := by
  induction h with
  | refl => cases hc
  | @next s t u line later es fs hp hs hr ih =>
    rw [callbacksOf_append, List.mem_append] at hc
    rcases hc with hc | hc
    · exact ⟨[], s, line, later, es, t, .refl s, hp, hs, hc⟩
    · obtain ⟨gs, v, line', later', hs', w, hr', hrest⟩ := ih hc
      exact ⟨_, v, line', later', hs', w, .next hp hs hr', hrest⟩

end State

open State

/-- Every construct of a header is reported by a step that succeeds. -/
theorem exists_step_of_mem_callbacks {source : String} {c : Callback}
    (hc : c ∈ (parse source).callbacks) (hk : c.event.isStructural = true) :
    ∃ s line later es t, Reachable source s ∧ s.pending = line :: later ∧
      s.step line later = (es, .ok t) ∧ c ∈ callbacksOf es := by
  have hne : ∀ {d : Callback}, c = d → d.event.isStructural = false → False := fun h hd => by
    rw [h, hd] at hk
    cases hk
  have hfound : ∀ {fs t}, Reads (startOf source) fs t → c ∈ callbacksOf fs →
      ∃ s line later es t, Reachable source s ∧ s.pending = line :: later ∧
        s.step line later = (es, .ok t) ∧ c ∈ callbacksOf es := fun hr hc => by
    obtain ⟨fs, s, line, later, gs, u, hr', hrest⟩ := exists_step_of_mem_reads hr hc
    exact ⟨s, line, later, gs, u, ⟨fs, hr'⟩, hrest⟩
  obtain ⟨es, t, hr, ht | ⟨line, later, fs, e, hp, hs⟩⟩ := exists_reads (startOf source)
  · obtain ⟨hall, -, -⟩ := parse_of_run (run_of_reads hr ht)
    rw [hall, callbacksOf_append] at hc
    rcases List.mem_cons.mp hc with heq | hc
    · exact (hne heq rfl).elim
    · rcases List.mem_append.mp hc with hc | hc
      · exact hfound hr hc
      · have hcall := mem_calls_of_mem_callbacksOf hc hk
        rw [calls_close] at hcall
        cases hcall
  · obtain ⟨hall, -, -⟩ := parse_of_run (run_of_reads_error hr hp hs)
    rw [hall, callbacksOf_append] at hc
    rcases List.mem_cons.mp hc with heq | hc
    · exact (hne heq rfl).elim
    · rcases List.mem_append.mp hc with hc | hc
      · exact hfound hr hc
      · have hcall := mem_calls_of_mem_callbacksOf hc hk
        rw [(step_error hs).1] at hcall
        cases hcall

end HeaderOutline
