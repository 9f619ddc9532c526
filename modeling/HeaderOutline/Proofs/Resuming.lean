import HeaderOutline.Proofs.CleanPrefix
/-!
# The rest of a header

From where its lines begin, the rest of a header is read as if it stood alone in the scopes that are
there: what has been read before it bears on line numbers and counts only. So a header whose first
lines report nothing is read like the lines behind these.

Results:
* `pieces_renumber`, `pieces_regroup`: what is taken does not depend on line numbers.
* `resumes`: the reading of the lines that are left.
* `parse_of_enters`: the reading of a header whose first lines report nothing.
-/
namespace HeaderOutline
open State

namespace State

/-! ## Pieces under other numbers -/

theorem withLines_renumber (ρ : Nat → Nat) (text : List Char) (ls : List SourceLine) :
    withLines text (ls.map (.renumber ρ)) = withLines text ls := by
  rw [withLines, List.foldl_map]
  rfl

theorem piece_renumber (ρ : Nat → Nat) (b : Tally) (s : State) (line : SourceLine)
    (later : List SourceLine) :
    (s.renumber ρ b).piece (line.renumber ρ) (later.map (.renumber ρ)) = s.piece line later := by
  have hf : (s.renumber ρ b).found? (line.renumber ρ) = s.found? line := rfl
  have ht : (line.renumber ρ).text = line.text := rfl
  unfold piece
  rw [hf, ht]
  split
  · rw [List.isEmpty_map]
  · next rule k rest _ =>
    cases k with
    | enumHead =>
      simp only [takenText, gatherEnum_renumber, ← List.map_take, withLines_renumber]
    | define name value =>
      simp only [takenText, joinLines_renumber, List.length_map, ← List.map_take,
        withLines_renumber]
    | _ => rfl

/-- What is taken does not depend on the numbers of the lines. -/
theorem pieces_renumber {ρ : Nat → Nat} (hρ : Function.Injective ρ) (b : Tally) (s : State) :
    (s.renumber ρ b).pieces = s.pieces := by
  obtain ⟨es, t, hr, ht⟩ := exists_reads s
  induction hr with
  | refl s =>
    rcases ht with ht | ⟨line, later, fs, e, hp, hs⟩
    · rw [pieces_of_pending_nil ht, pieces_of_pending_nil (by rw [pending_renumber, ht]; rfl)]
    · have hp' : (s.renumber ρ b).pending = line.renumber ρ :: later.map (.renumber ρ) := by
        rw [pending_renumber, hp]
        rfl
      rw [pieces_of_error hp hs, pieces_of_error hp' (step_renumber_error hρ hs), piece_renumber]
  | @next s t u line later es fs hp hs _ ih =>
    have hp' : (s.renumber ρ b).pending = line.renumber ρ :: later.map (.renumber ρ) := by
      rw [pending_renumber, hp]
      rfl
    rw [pieces_of_step hp hs, pieces_of_step hp' (step_renumber_ok hρ hs), piece_renumber, ih ht]

/-- Nor on a line that still has to end. -/
theorem pieces_regroup {s : State} {g : SourceLine} (hs : s.group = none)
    (hg : ∀ l ∈ s.pending.head?, g.number ≠ l.number) :
    (s.regroup (some g)).pieces = s.pieces := by
  cases hp : s.pending with
  | nil =>
    have hp' : (s.regroup (some g)).pending = [] := hp
    rw [pieces_of_pending_nil hp, pieces_of_pending_nil hp']
  | cons line later =>
    have hst : (s.regroup (some g)).step line later = _ :=
      step_regroup hs (hg line (by rw [hp]; rfl))
    have hp' : (s.regroup (some g)).pending = line :: later := hp
    have hpiece : (s.regroup (some g)).piece line later = s.piece line later := rfl
    rcases h : s.step line later with ⟨es, e | t⟩
    · rw [h] at hst
      rw [pieces_of_error hp' hst, pieces_of_error hp h, hpiece]
    · rw [h] at hst
      rw [pieces_of_step hp' hst, pieces_of_step hp h, hpiece]

/-! ## The rest of a header -/

/-- Before the first line, in the scopes. -/
def startIn (fs : ScopeStack) (lines : List SourceLine) : State :=
  ⟨lines, fs, none, ⟨0, 0, 0, 0⟩⟩

/-- The reading of `u` is that of `s`, `n` lines further down. -/
structure Resumes (n : Nat) (u s : State) : Prop where
  structural : structural (callbacksOf u.run.1) =
    (structural (callbacksOf s.run.1)).map (.renumber (· + n))
  pieces : u.pieces = s.pieces
  error : ∀ e, s.run.2 = .error e → u.run.2 = .error (e.renumber (· + n))
  ok : ∀ t, s.run.2 = .ok t → ∃ t', u.run.2 = .ok t' ∧ t'.scopes = t.scopes ∧
    t'.tally = u.tally + t.tally

theorem structural_close (s : State) : HeaderOutline.structural (callbacksOf s.close) = [] :=
  structural_of_calls_nil (calls_close s)

section

variable {u : State} {n : Nat} {lines : List SourceLine} {g : SourceLine}

/-- The state in which the lines are left is the first one, but for numbers, counts and the line
that still has to end. -/
theorem regroup_startIn (hp : u.pending = lines.map (.renumber (· + n))) (hg : u.group = some g) :
    ((startIn u.scopes lines).renumber (· + n) u.tally).regroup (some g) = u := by
  have htally : u.tally + (⟨0, 0, 0, 0⟩ : Tally) = u.tally := rfl
  rw [← hg]
  simp only [regroup, renumber, startIn, htally, ← hp]

/-- Under new numbers, the line that still has to end does so, and then all is read as before. -/
theorem run_regroup_renumber {ρ : Nat → Nat} {b : Tally} {s : State} (hρ : Function.Injective ρ)
    (hs : s.group = none) (hp : s.pending ≠ [])
    (hg : ∀ l ∈ s.pending, g.number ≠ ρ l.number) :
    ∃ e, calls [e] = [] ∧ ((s.renumber ρ b).regroup (some g)).run =
      (e :: (renumberedResult ρ b s.run).1, (renumberedResult ρ b s.run).2) := by
  obtain ⟨line, later, hp'⟩ := List.exists_cons_of_ne_nil hp
  have hnone : (s.renumber ρ b).group = none := by rw [group_renumber, hs]; rfl
  have hcons : (s.renumber ρ b).pending = line.renumber ρ :: later.map (.renumber ρ) := by
    rw [pending_renumber, hp']
    rfl
  have hne : g.number ≠ (line.renumber ρ).number := hg line (hp' ▸ List.mem_cons_self)
  refine ⟨_, ?_, (run_regroup hnone hcons hne).trans (by rw [run_renumber hρ (.inl hp)])⟩
  rw [calls_callback]
  rfl

/-- The lines that are left are read as if they stood alone in the scopes that are there. -/
theorem resumes (hp : u.pending = lines.map (.renumber (· + n))) (hl : ∀ l ∈ lines, 1 ≤ l.number)
    (hg : u.group = some g) (hn : g.number ≤ n) : Resumes n u (startIn u.scopes lines) := by
  have hρ : Function.Injective (· + n) := fun _ _ h => Nat.add_right_cancel h
  have hu := regroup_startIn hp hg
  have hnumbers : ∀ l ∈ lines, g.number ≠ l.number + n := fun l hmem => by
    have h1 := hl l hmem
    omega
  have hpieces : (((startIn u.scopes lines).renumber (· + n) u.tally).regroup (some g)).pieces =
      (startIn u.scopes lines).pieces := by
    rw [pieces_regroup rfl fun l hl => ?_, pieces_renumber hρ]
    obtain ⟨m, hm, rfl⟩ := List.mem_map.mp (List.mem_of_mem_head? hl)
    exact hnumbers m hm
  rw [hu] at hpieces
  by_cases hne : lines = []
  · -- Nothing is left: the line that is being read ends, and so does the parse.
    have hup : u.pending = [] := by rw [hp, hne]; rfl
    rw [hne] at hpieces ⊢
    have hs : (startIn u.scopes []).run =
        ((startIn u.scopes []).close, .ok (startIn u.scopes [])) := run_of_pending_nil rfl
    refine ⟨?_, hpieces, ?_, ?_⟩
    · rw [hs, run_of_pending_nil hup, structural_close, structural_close]
      rfl
    · rw [hs]
      exact fun e he => by cases he
    · rw [hs, run_of_pending_nil hup]
      rintro t ⟨⟩
      exact ⟨u, rfl, rfl, rfl⟩
  · obtain ⟨e, he, hrun⟩ := run_regroup_renumber (b := u.tally) hρ
      (s := startIn u.scopes lines) rfl hne hnumbers
    rw [hu] at hrun
    refine ⟨?_, hpieces, fun e he => ?_, fun t ht => ?_⟩
    · rw [hrun, ← List.singleton_append, callbacksOf_append, structural_append,
        structural_of_calls_nil he, List.nil_append]
      simp only [renumberedResult, callbacksOf_renumber, structural_renumber]
    · rw [hrun, renumberedResult, he]
    · rw [hrun, renumberedResult, ht]
      exact ⟨_, rfl, rfl, rfl⟩

end

/-! ## The first lines of a header -/

theorem pending_startOf (source : String) :
    (startOf source).pending = SourceLine.ofSource source.toList :=
  rfl

/-- A course without reports that takes the pieces `ps` and comes to the state `u` in the scopes
`fs`, with `later` pending behind a line of number `n`. -/
structure Enters (s : State) (ps : List Piece) (fs : ScopeStack) (n : Nat) (later : List SourceLine)
    (u : State) : Prop where
  reads : ∃ es, Reads s es u ∧ calls es = []
  pieces : s.pieces = ps ++ u.pieces
  discarded : u.tally.discarded = s.tally.discarded
  scopes : u.scopes = fs
  pending : u.pending = later
  group : ∃ g, u.group = some g ∧ g.number = n

theorem Enters.trans {s t u : State} {ps qs : List Piece} {fs gs : ScopeStack} {m n : Nat}
    {later left : List SourceLine} (h : Enters s ps fs m later t) (h' : Enters t qs gs n left u) :
    Enters s (ps ++ qs) gs n left u := by
  obtain ⟨es, hr, hc⟩ := h.reads
  obtain ⟨es', hr', hc'⟩ := h'.reads
  refine ⟨⟨es ++ es', hr.trans hr', by rw [calls_append, hc, hc', List.append_nil]⟩, ?_,
    h'.discarded.trans h.discarded, h'.scopes, h'.pending, h'.group⟩
  rw [h.pieces, h'.pieces, List.append_assoc]

/-- A step that acts upon a match does what its construct does. -/
theorem enters_of_does {s : State} {line : SourceLine} {later : List SourceLine} {rule : Rule}
    {k : Construct} {rest : List Char} {gs : ScopeStack} (hp : s.pending = line :: later)
    (hf : s.found? line = some (rule, k, rest)) (hk : k.Does s.scopes [] gs) :
    ∃ u, Enters s [s.piece line later] gs line.number (requeue line.number rest later) u := by
  obtain ⟨es, u, hs, hc, hscopes, hpending, hd⟩ := step_of_does later hf hk
  refine ⟨u, ⟨es, .one hp hs, hc⟩, pieces_of_step hp hs, hd, hscopes, hpending, ?_⟩
  rcases group_step hs with hg | ⟨hg, hn⟩
  · exact ⟨line, hg, rfl⟩
  · obtain ⟨g, hsg, hgn⟩ := Option.map_eq_some_iff.mp hn
    exact ⟨g, hg.trans hsg, hgn⟩

/-- A header whose first lines report nothing is read like the lines behind these, further down. -/
theorem parse_of_enters {source : String} {ps : List Piece} {fs : ScopeStack} {n : Nat}
    {lines : List SourceLine} {u : State} (hl : ∀ l ∈ lines, 1 ≤ l.number)
    (h : Enters (startOf source) ps fs n (lines.map (.renumber (· + n))) u) :
    HeaderOutline.structural (parse source).callbacks =
        (HeaderOutline.structural (callbacksOf (startIn fs lines).run.1)).map
          (.renumber (· + n)) ∧
      piecesOf source = ps ++ (startIn fs lines).pieces ∧
      (∀ e, (startIn fs lines).run.2 = .error e →
        (parse source).result = .error (e.renumber (· + n))) ∧
      ∀ t, (startIn fs lines).run.2 = .ok t → ∃ f, (parse source).result = .ok f ∧
        f.summary.unclosedScopes = t.scopes.length ∧ f.tally.discarded = t.tally.discarded := by
  obtain ⟨g, hg, hgn⟩ := h.group
  have hr := resumes h.pending hl hg (Nat.le_of_eq hgn)
  rw [h.scopes] at hr
  obtain ⟨es, hreads, hc⟩ := h.reads
  obtain ⟨hcallbacks, herror, hok⟩ := parse_of_run (run_of_reads_run hreads)
  have hes : HeaderOutline.structural (callbacksOf es) = [] := structural_of_calls_nil hc
  refine ⟨?_, h.pieces.trans (congrArg (ps ++ ·) hr.pieces), fun e he => herror _ (hr.error e he),
    fun t ht => ?_⟩
  · rw [hcallbacks, callbacksOf_append, ← List.singleton_append, structural_append,
      structural_append, hes, hr.structural]
    rfl
  · obtain ⟨t', ht', hscopes, htally⟩ := hr.ok t ht
    refine ⟨_, hok t' ht', congrArg List.length hscopes, ?_⟩
    show t'.tally.discarded = _
    rw [htally]
    show u.tally.discarded + t.tally.discarded = _
    rw [h.discarded]
    exact Nat.zero_add _

end State

end HeaderOutline
