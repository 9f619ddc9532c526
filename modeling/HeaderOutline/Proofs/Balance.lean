import HeaderOutline.Proofs.Pieces
/-!
# Balanced braces

Every brace of a header is in some piece. Where an opening or a closing brace is matched, the scopes
count it; any other piece may hold braces that the scopes never see: the bodies and statements of
enums, default values, groups behind `noexcept`, names of operators.

Results:
* `braces_step`: one step parts the braces of the pending text into those of its piece and the rest.
* `openCount_step`: the opened frames follow the brace matches.
* `closesAll_iff_seen`, `closesAll_iff`: when a header, and when a balanced header, is read to its
  end with no opened frame left.
-/
namespace HeaderOutline
open Text Declaration Brace

def pendingBraces (ls : List SourceLine) : List Brace :=
  ls.flatMap fun l => bracesIn l.text

def AllEnd (ls : List SourceLine) : Prop :=
  ∀ l ∈ ls, LiteralsEnd l.text

theorem pendingBraces_cons (l : SourceLine) (ls : List SourceLine) :
    pendingBraces (l :: ls) = bracesIn l.text ++ pendingBraces ls :=
  List.flatMap_cons ..

theorem pendingBraces_append (ls ms : List SourceLine) :
    pendingBraces (ls ++ ms) = pendingBraces ls ++ pendingBraces ms :=
  List.flatMap_append ..

/-- The braces in lines of which the first begins in the mode. -/
def bracesAfter (m : QuoteMode) : List SourceLine → List Brace
  | [] => []
  | l :: ls => bracesFrom m l.text ++ pendingBraces ls

/-- Every literal ends in its line, also one that is open where the first line begins. -/
def EndFrom (m : QuoteMode) : List SourceLine → Prop
  | [] => m = .code
  | l :: ls => m.after l.text = .code ∧ AllEnd ls

theorem bracesAfter_code (ls : List SourceLine) : bracesAfter .code ls = pendingBraces ls := by
  cases ls <;> rfl

theorem endFrom_code {ls : List SourceLine} : EndFrom .code ls ↔ AllEnd ls := by
  cases ls with
  | nil => simp [EndFrom, AllEnd]
  | cons l ls => simp [EndFrom, AllEnd, LiteralsEnd]

/-! ## Texts that move -/

theorem scan_join {m : QuoteMode} {text : List Char} (h : m.after text = .code)
    (next : List Char) :
    bracesFrom m (text ++ ' ' :: next) = bracesFrom m text ++ bracesIn next ∧
      m.after (text ++ ' ' :: next) = QuoteMode.code.after next := by
  rw [bracesFrom_append, after_append, h]
  exact ⟨rfl, rfl⟩

theorem scan_joined {m : QuoteMode} {text : List Char} {ls : List SourceLine}
    (h : m.after text = .code) (hl : AllEnd ls) :
    bracesFrom m (withLines text ls) = bracesFrom m text ++ pendingBraces ls ∧
      m.after (withLines text ls) = .code := by
  induction ls generalizing text with
  | nil => exact ⟨by simp [withLines, pendingBraces], h⟩
  | cons l ls ih =>
    obtain ⟨h1, h2⟩ := scan_join h l.text
    rw [hl l List.mem_cons_self] at h2
    obtain ⟨h3, h4⟩ := ih h2 fun k hk => hl k (List.mem_cons_of_mem _ hk)
    refine ⟨?_, h4⟩
    rw [pendingBraces_cons, ← List.append_assoc, ← h1]
    exact h3

/-- A text that a match parts: what it takes and what goes back to the front. -/
theorem scan_requeue {m : QuoteMode} {text rest : List Char} {later : List SourceLine}
    (number : Nat) (hs : rest <:+ text) (h : m.after text = .code) (hl : AllEnd later) :
    bracesFrom m text ++ pendingBraces later =
        bracesFrom m (front text (trimStart rest)) ++
          bracesAfter (m.after (front text (trimStart rest))) (requeue number rest later) ∧
      EndFrom (m.after (front text (trimStart rest))) (requeue number rest later) := by
  have he := front_append ((trimStart_suffix rest).trans hs)
  unfold requeue
  simp only
  split
  · next h0 =>
    rw [List.isEmpty_iff.mp h0, List.append_nil] at he
    rw [List.isEmpty_iff.mp h0, he, h, bracesAfter_code]
    exact ⟨rfl, endFrom_code.mpr hl⟩
  · have hb := bracesFrom_append m (front text (trimStart rest)) (trimStart rest)
    have ha := after_append m (front text (trimStart rest)) (trimStart rest)
    rw [he] at hb ha
    rw [h] at ha
    exact ⟨by rw [hb, List.append_assoc]; rfl, ha.symm, hl⟩

/-! ## One step -/

namespace State

variable {m : QuoteMode} {s t : State} {line : SourceLine} {es : List Entry}

theorem scan_take_drop {text : List Char} {later : List SourceLine} (k : Nat)
    (h : m.after text = .code) (hl : AllEnd later) :
    bracesFrom m (withLines text (later.take k)) ++ pendingBraces (later.drop k) =
        bracesFrom m text ++ pendingBraces later ∧
      m.after (withLines text (later.take k)) = .code ∧ AllEnd (later.drop k) := by
  have ht : AllEnd (later.take k) := fun l hm => hl l (List.mem_of_mem_take hm)
  obtain ⟨h1, h2⟩ := scan_joined h ht
  refine ⟨?_, h2, fun l hm => hl l (List.mem_of_mem_drop hm)⟩
  rw [h1, List.append_assoc, ← pendingBraces_append, List.take_append_drop]

theorem braces_act {rest : List Char} {k : Construct} (h : s.act line rest k = (es, .ok t))
    (hs : rest <:+ line.text) (hd : ∀ name value, k = .define name value → rest = [])
    (hl : m.after line.text = .code) (hp : AllEnd s.pending) :
    bracesFrom m line.text ++ pendingBraces s.pending =
        bracesFrom m (takenText line.text s.pending rest k) ++
          bracesAfter (m.after (takenText line.text s.pending rest k)) t.pending ∧
      EndFrom (m.after (takenText line.text s.pending rest k)) t.pending := by
  rw [pending_act h]
  -- A match takes the front of its fragment; macros and enums take joined lines as well.
  cases k with
  | enumHead =>
    obtain ⟨n, hn, hle, hg, hr⟩ := suffix_gatherEnum 0 line.text s.pending
    rw [Nat.zero_add] at hn
    obtain ⟨h1, h2, h3⟩ := scan_take_drop n hl hp
    simp only [leftLines, takenText, hn, hg]
    rw [← h1]
    exact scan_requeue line.number hr h2 h3
  | define name value =>
    obtain rfl := hd name value rfl
    have hj := List.suffix_iff_eq_drop.mp (suffix_joinLines value s.pending)
    obtain ⟨h1, h2, h3⟩ := scan_take_drop
      (s.pending.length - (joinLines value s.pending).2.length) hl hp
    rw [← hj] at h1 h3
    simp only [leftLines, takenText, h2]
    rw [← h1, bracesAfter_code]
    exact ⟨rfl, endFrom_code.mpr h3⟩
  | _ => exact scan_requeue line.number hs hl hp

theorem braces_dispatch (h : s.dispatch line = (es, .ok t)) (hl : m.after line.text = .code)
    (hp : AllEnd s.pending) :
    bracesFrom m line.text ++ pendingBraces s.pending =
        bracesFrom m (s.piece line s.pending).text ++
          bracesAfter (m.after (s.piece line s.pending).text) t.pending ∧
      EndFrom (m.after (s.piece line s.pending).text) t.pending := by
  unfold piece
  rcases dispatch_cases h with ⟨hm, hu⟩ | ⟨rule, k, rest, fs, hm, -, ha⟩
  · rw [hm]
    unfold unmatched at hu
    cases hq : s.pending with
    | nil =>
      have hq' : s.countDispatched.pending = [] := hq
      rw [hq'] at hu
      cases hu
      show _ = bracesFrom m line.text ++ bracesAfter (m.after line.text) s.pending ∧
        EndFrom (m.after line.text) s.pending
      rw [hq, hl]
      exact ⟨rfl, rfl⟩
    | cons next later =>
      have hq' : s.countDispatched.pending = next :: later := hq
      rw [hq'] at hu
      cases hu
      rw [hq] at hp
      obtain ⟨h1, h2⟩ := scan_join hl next.text
      refine ⟨?_, ?_, fun l hm => hp l (List.mem_cons_of_mem _ hm)⟩
      · show _ = [] ++ (bracesFrom m (line.text ++ ' ' :: next.text) ++ pendingBraces later)
        rw [pendingBraces_cons, h1, List.nil_append, List.append_assoc]
      · show m.after (line.text ++ ' ' :: next.text) = .code
        rw [h2]
        exact hp next List.mem_cons_self
  · rw [hm]
    obtain ⟨-, hr⟩ := Rule.recognize?_of_match? hm
    exact braces_act (s := s.countDispatched) ha (Rule.suffix_of_match? hm)
      (fun name value hk => Rule.eq_nil_of_define (hk ▸ hr)) hl hp

/-- What is found does not depend on the other lines, nor on whether the line was entered. -/
theorem found?_enter (later : List SourceLine) (line : SourceLine) (s : State) :
    ({ s with pending := later }.enter line).2.found? line = s.found? line := by
  unfold enter
  split <;> rfl

/-- One step parts the braces of the pending text into those of the piece that it takes and those
that are left. -/
theorem braces_step {later : List SourceLine} (hp : s.pending = line :: later)
    (h : s.step line later = (es, .ok t)) (hs : EndFrom m s.pending) :
    bracesAfter m s.pending = bracesFrom m (s.piece line later).text ++
        bracesAfter (m.after (s.piece line later).text) t.pending ∧
      EndFrom (m.after (s.piece line later).text) t.pending := by
  simp only [step, Prod.mk.injEq] at h
  obtain ⟨-, ht⟩ := h
  have hd := braces_dispatch (m := m) (Prod.ext rfl ht)
  have hf : ({ s with pending := later }.enter line).2.piece line later = s.piece line later := by
    rw [piece, found?_enter, piece]
  rw [pending_enter, hf] at hd
  rw [hp] at hs ⊢
  exact hd hs.1 hs.2

theorem piece_error {later : List SourceLine} {e : UnbalancedBrace}
    (h : s.step line later = (es, .error e)) :
    ∃ rule rest, s.found? line = some (rule, .closeBrace, rest) ∧
      s.piece line later = ⟨some rule, front line.text (trimStart rest)⟩ := by
  simp only [step, Prod.mk.injEq] at h
  obtain ⟨-, ht⟩ := h
  obtain ⟨rule, k, rest, fs, hm, -, ha⟩ := dispatch_error_cases (Prod.ext rfl ht)
  rw [found?_enter] at hm
  have hk : k = .closeBrace := by
    unfold act at ha
    split at ha
    · cases ha
    · rfl
    · cases ha
  subst hk
  refine ⟨rule, rest, hm, ?_⟩
  rw [piece, hm]
  rfl

end State

/-! ## Braces that the scopes count -/

def Rule.braces : Rule → List Brace
  | .openBrace => [.opening]
  | .closeBrace => [.closing]
  | _ => []

def Construct.braces : Construct → List Brace
  | .openBrace => [.opening]
  | .closeBrace => [.closing]
  | _ => []

/-- The braces that the scopes count in some pieces. -/
def seen (ps : List Piece) : List Brace :=
  ps.flatMap fun p => (p.rule.map Rule.braces).getD []

theorem Rule.braces_of_recognize? {className : Option String} {cs rest : List Char}
    {k : Construct} {rule : Rule} (h : recognize? className cs rule = some (k, rest)) :
    k.braces = rule.braces := by
  cases makes_of_recognize? h <;> rfl

def openCount (fs : ScopeStack) : Int :=
  (fs.countP Frame.isOpened : Nat)

theorem openCount_nonneg (fs : ScopeStack) : 0 ≤ openCount fs :=
  Int.natCast_nonneg _

theorem openCount_cons (f : Frame) (fs : ScopeStack) :
    openCount (f :: fs) = openCount fs + if f.isOpened then 1 else 0 := by
  simp only [openCount, List.countP_cons]
  split <;> simp

theorem openCount_eq_zero {fs : ScopeStack} :
    openCount fs = 0 ↔ ∀ f ∈ fs, f.isOpened = false := by
  simp [openCount, List.countP_eq_zero]

theorem openCount_dropWhile (fs : ScopeStack) :
    openCount (fs.dropWhile (!·.isOpened)) = openCount fs := by
  induction fs with
  | nil => rfl
  | cons f fs ih =>
    rw [List.dropWhile_cons, openCount_cons]
    cases h : f.isOpened <;> simp [ih, openCount_cons, h]

theorem openCount_setAccess (level : AccessLevel) (fs : ScopeStack) :
    openCount (fs.setAccess level) = openCount fs := by
  unfold ScopeStack.setAccess
  split
  · rw [openCount_cons, openCount_cons]; rfl
  · rfl

namespace State

variable {s t : State} {line : SourceLine} {es : List Entry}

theorem openCount_openBrace (s : State) :
    openCount s.openBrace.2.scopes = openCount s.scopes + 1 := by
  unfold openBrace
  split
  · next h => simp [push, openCount_cons, Frame.isOpened]
  · next f fs h =>
    split
    · simp [push, openCount_cons, Frame.isOpened]
    · next ho => simp [h, openCount_cons, Frame.isOpened_opening, ho]

theorem openCount_report (e : Event) {body : Option Frame} (hb : ∀ f ∈ body, f.isOpened = false)
    (s : State) : openCount (s.report e body).2.scopes = openCount s.scopes := by
  cases body with
  | none => rfl
  | some f =>
    show openCount (f :: s.scopes) = _
    simp [openCount_cons, hb f rfl]

theorem openCount_perform {k : Construct} (hk : k ≠ .closeBrace) (s : State) :
    openCount (s.perform k).2.scopes = openCount s.scopes + net k.braces := by
  cases k with
  | openBrace => exact openCount_openBrace s
  | closeBrace => exact absurd rfl hk
  | access level => simp [perform, Construct.braces, openCount_setAccess]
  | linkage block => cases block <;> simp [perform, push, Construct.braces, openCount_cons,
      Frame.isOpened]
  | nameSpace | classHead =>
    exact (openCount_report _ (fun _ hf => by cases hf; rfl) s).trans (Int.add_zero _).symm
  | function _ terminated | constructor _ terminated | destructor _ terminated =>
    cases terminated <;>
      exact (openCount_report _ (fun _ hf => by cases hf <;> rfl) s).trans (Int.add_zero _).symm
  | _ => simp [perform, Construct.braces, report, countConstruct]

theorem openCount_closeBrace {number : Nat} (h : s.closeBrace number = (es, .ok t)) :
    openCount t.scopes = openCount s.scopes - 1 := by
  unfold closeBrace at h
  simp only at h
  split at h
  · cases h
  · next f fs hd =>
    have ho : f.isOpened = true := by
      have := List.head?_dropWhile_not (!·.isOpened) s.scopes
      simpa [hd] using this
    simp only [Prod.mk.injEq, Except.ok.injEq] at h
    obtain ⟨-, rfl⟩ := h
    have hc := openCount_dropWhile s.scopes
    rw [hd, openCount_cons, ho] at hc
    simp only [if_true] at hc
    show openCount fs = _
    omega

theorem openCount_act {rest : List Char} {k : Construct} (h : s.act line rest k = (es, .ok t)) :
    openCount t.scopes = openCount s.scopes + net k.braces := by
  unfold act at h
  split at h
  · simp only [Prod.mk.injEq, Except.ok.injEq] at h
    obtain ⟨-, rfl⟩ := h
    unfold readEnum
    simp only
    split <;> simp [Construct.braces, report, countConstruct, countMerges, countDiscarded]
  · split at h
    · cases h
    · next u hc =>
      simp only [Prod.mk.injEq, Except.ok.injEq] at h
      obtain ⟨-, rfl⟩ := h
      have hu := openCount_closeBrace hc
      exact hu
  · next hk =>
    simp only [Prod.mk.injEq, Except.ok.injEq] at h
    obtain ⟨-, rfl⟩ := h
    exact openCount_perform hk s

theorem scopes_unmatched (line : SourceLine) (s : State) :
    (s.unmatched line).2.scopes = s.scopes := by
  unfold unmatched
  split <;> rfl

/-- A step that succeeds counts the brace of its piece. -/
theorem openCount_step {later : List SourceLine} (h : s.step line later = (es, .ok t)) :
    openCount t.scopes = openCount s.scopes + net (seen [s.piece line later]) := by
  simp only [step, Prod.mk.injEq] at h
  obtain ⟨-, ht⟩ := h
  have hc : openCount ({ s with pending := later }.enter line).2.scopes = openCount s.scopes := by
    rw [scopes_enter]
  unfold piece
  rcases dispatch_cases (Prod.ext rfl ht) with ⟨hm, hu⟩ | ⟨rule, k, rest, fs, hm, -, ha⟩
  · rw [found?_enter] at hm
    have hs := scopes_unmatched line ({ s with pending := later }.enter line).2.countDispatched
    rw [hu] at hs
    rw [hm, ← hc, show t.scopes = _ from hs]
    exact (Int.add_zero _).symm
  · rw [found?_enter] at hm
    rw [hm, ← hc, openCount_act ha, Rule.braces_of_recognize? (Rule.recognize?_of_match? hm).2]
    simp [seen, countDispatched]

/-- A step fails at a closing brace with nothing opened. -/
theorem openCount_error {later : List SourceLine} {e : UnbalancedBrace}
    (h : s.step line later = (es, .error e)) :
    openCount s.scopes = 0 ∧ seen [s.piece line later] = [.closing] := by
  refine ⟨openCount_eq_zero.mpr (step_error h).2.2, ?_⟩
  obtain ⟨rule, rest, hm, ht⟩ := piece_error h
  have hb := Rule.braces_of_recognize? (Rule.recognize?_of_match? hm).2
  rw [ht]
  simp [seen, ← hb, Construct.braces]

/-! ## Whole courses -/

theorem pieces_of_pending_nil (h : s.pending = []) : s.pieces = [] := by
  rw [pieces]
  split
  · rfl
  · next h' => rw [h] at h'; cases h'

theorem pieces_of_step {later : List SourceLine} (hp : s.pending = line :: later)
    (hs : s.step line later = (es, .ok t)) : s.pieces = s.piece line later :: t.pieces := by
  rw [pieces]
  split
  · next h' => rw [hp] at h'; cases h'
  · next h' =>
    rw [hp] at h'
    cases h'
    split
    · next h' => rw [hs] at h'; cases h'
    · next h' => rw [hs] at h'; cases h'; rfl

theorem pieces_of_error {later : List SourceLine} {e : UnbalancedBrace}
    (hp : s.pending = line :: later) (hs : s.step line later = (es, .error e)) :
    s.pieces = [s.piece line later] := by
  rw [pieces]
  split
  · next h' => rw [hp] at h'; cases h'
  · next h' =>
    rw [hp] at h'
    cases h'
    split
    · rfl
    · next h' => rw [hs] at h'; cases h'

end State

def taken (ps : List Piece) : List Char :=
  ps.flatMap Piece.text

@[simp] theorem seen_cons (p : Piece) (ps : List Piece) : seen (p :: ps) = seen [p] ++ seen ps := by
  simp [seen]

namespace State

/-- The pieces of a reading that comes to its end have all braces of the pending text. -/
theorem braces_of_reads {m : QuoteMode} {s t : State} {es : List Entry} (h : Reads s es t)
    (ht : t.pending = []) (hs : EndFrom m s.pending) :
    bracesAfter m s.pending = bracesFrom m (taken s.pieces) := by
  induction h generalizing m with
  | refl => rw [ht, pieces_of_pending_nil ht]; rfl
  | next hp hst _ ih =>
    obtain ⟨h1, h2⟩ := braces_step hp hst hs
    rw [h1, ih ht h2, pieces_of_step hp hst]
    exact (bracesFrom_append ..).symm

/-- The opened frames at the end of a course follow the braces that its pieces count. -/
theorem openCount_of_reads {s t : State} {es : List Entry} (h : Reads s es t)
    (ht : t.pending = []) :
    (∀ ps, ps <+: s.pieces → 0 ≤ openCount s.scopes + net (seen ps)) ∧
      openCount t.scopes = openCount s.scopes + net (seen s.pieces) := by
  induction h with
  | refl s =>
    rw [pieces_of_pending_nil ht]
    refine ⟨fun ps hps => ?_, (Int.add_zero _).symm⟩
    rw [List.prefix_nil.mp hps]
    exact Int.add_nonneg (openCount_nonneg _) (Int.le_refl _)
  | next hp hs _ ih =>
    obtain ⟨h1, h2⟩ := ih ht
    have hc := openCount_step hs
    rw [pieces_of_step hp hs, seen_cons, net_append, ← Int.add_assoc, ← hc]
    refine ⟨fun ps hps => ?_, h2⟩
    cases ps with
    | nil => exact Int.add_nonneg (openCount_nonneg _) (Int.le_refl _)
    | cons p ps =>
      obtain ⟨rfl, hq⟩ := List.cons_prefix_cons.mp hps
      rw [seen_cons, net_append, ← Int.add_assoc, ← hc]
      exact h1 ps hq

/-- A course that a step cuts short has counted one closing brace too many. -/
theorem seen_of_reads_error {s t : State} {line : SourceLine} {later : List SourceLine}
    {es fs : List Entry} {e : UnbalancedBrace} (h : Reads s es t) (hp : t.pending = line :: later)
    (hs : t.step line later = (fs, .error e)) : openCount s.scopes + net (seen s.pieces) = -1 := by
  induction h with
  | refl =>
    obtain ⟨h1, h2⟩ := openCount_error hs
    rw [pieces_of_error hp hs, h1, h2]
    rfl
  | next hp' hs' _ ih =>
    rw [pieces_of_step hp' hs', seen_cons, net_append, ← Int.add_assoc, ← openCount_step hs']
    exact ih hp hs

end State

/-! ## Whole headers -/

/-- The reading ends well, and the scopes at its end have no opened frame. -/
def Reading.ClosesAll (r : Reading) : Prop :=
  r.result.isOk = true ∧
    ∃ c ∈ r.callbacks.getLast?, c.event = .parseEnd ∧ ∀ f ∈ c.scopes, f.isOpened = false

def piecesOf (source : String) : List Piece :=
  (startOf source).pieces

/-- How many braces more are opened than closed in the pieces. -/
def depth (ps : List Piece) : Int :=
  net (bracesIn (taken ps))

/-- The same, less the braces that the scopes count: what the scopes never see. -/
def lost (ps : List Piece) : Int :=
  depth ps - net (seen ps)

theorem getLast?_callbacks {source : String} {es : List Entry} {t : State}
    (h : State.Reads (startOf source) es t) (ht : t.pending = []) :
    (parse source).callbacks.getLast? = some ⟨.parseEnd, t.line, t.scopes⟩ := by
  simp [Reading.callbacks, (parse_of_reads h ht).1, State.close, State.callback, List.getLast?_cons]

/-- A header is read to its end with no opened frame left exactly if the braces that the scopes
count are balanced. -/
theorem closesAll_iff_seen {source : String} :
    (parse source).ClosesAll ↔
      (∀ ps, ps <+: piecesOf source → 0 ≤ net (seen ps)) ∧ net (seen (piecesOf source)) = 0 := by
  have h0 : openCount (startOf source).scopes = 0 := rfl
  obtain ⟨es, t, hr, ht | ⟨line, later, fs, e, hp, hs⟩⟩ := State.exists_reads (startOf source)
  · obtain ⟨h1, h2⟩ := State.openCount_of_reads hr ht
    simp only [h0, Int.zero_add] at h1 h2
    rw [piecesOf, ← h2, openCount_eq_zero]
    constructor
    · rintro ⟨-, c, hc, -, hf⟩
      rw [getLast?_callbacks hr ht] at hc
      cases hc
      exact ⟨h1, hf⟩
    · rintro ⟨-, hf⟩
      exact ⟨by rw [(parse_of_reads hr ht).2]; rfl, _, getLast?_callbacks hr ht, rfl, hf⟩
  · have h1 := State.seen_of_reads_error hr hp hs
    rw [h0, Int.zero_add] at h1
    constructor
    · rintro ⟨hf, -⟩
      rw [(parse_of_reads_error hr hp hs).2] at hf
      cases hf
    · rintro ⟨-, hz⟩
      rw [piecesOf] at hz
      omega

/-- A balanced header that no closing brace cuts short has all its braces in the pieces. -/
theorem depth_piecesOf {source : String} (hl : literalsClose source = true)
    (hb : Balanced (sourceBraces source)) (hs : 0 ≤ net (seen (piecesOf source))) :
    depth (piecesOf source) = 0 := by
  obtain ⟨es, t, hr, ht | ⟨line, later, fs, e, hp, he⟩⟩ := State.exists_reads (startOf source)
  · obtain ⟨hsrc, hend⟩ := scan_ofSource hl
    have h := State.braces_of_reads (m := .code) hr ht (endFrom_code.mpr hend)
    rw [bracesAfter_code] at h
    rw [depth, bracesIn, piecesOf, ← h, show pendingBraces (startOf source).pending = _ from hsrc]
    exact hb.2
  · have h := State.seen_of_reads_error hr hp he
    rw [show openCount (startOf source).scopes = 0 from rfl, Int.zero_add] at h
    rw [piecesOf] at hs
    omega

/-- A balanced header, all of whose literals close on their lines, is read to its end with no opened
frame left exactly if the braces that the scopes never see are harmless: at no point are more of
them opened than braces are open in all, and at the end as many are closed as opened. -/
theorem closesAll_iff {source : String} (hl : literalsClose source = true)
    (hb : Balanced (sourceBraces source)) :
    (parse source).ClosesAll ↔
      (∀ ps, ps <+: piecesOf source → lost ps ≤ depth ps) ∧ lost (piecesOf source) = 0 := by
  rw [closesAll_iff_seen]
  constructor
  · rintro ⟨hp, hz⟩
    have hd := depth_piecesOf hl hb (by omega)
    refine ⟨fun ps hps => ?_, by rw [lost]; omega⟩
    have h := hp ps hps
    rw [lost]
    omega
  · rintro ⟨hp, hz⟩
    have hf := hp _ (List.prefix_refl _)
    rw [lost] at hf hz
    have hd := depth_piecesOf hl hb (by omega)
    refine ⟨fun ps hps => ?_, by omega⟩
    have h := hp ps hps
    rw [lost] at h
    omega

/-- A balanced header with an enum that is returned: the enum's statement is read through to the end
of the namespace, whose brace the scopes never see. -/
def returnedEnum : String :=
  "namespace n \x7b\nenum Color f() \x7b return RED; \x7d\n\x7d\nint x;\n"

theorem not_closesAll_returnedEnum :
    literalsClose returnedEnum = true ∧ Balanced (sourceBraces returnedEnum) ∧
      ¬ (parse returnedEnum).ClosesAll := by
  have hl : literalsClose returnedEnum = true := by decide
  have hb : Balanced (sourceBraces returnedEnum) := by decide +kernel
  refine ⟨hl, hb, fun hc => ?_⟩
  have hlost : lost (piecesOf returnedEnum) = -1 := by decide +kernel
  have hz := ((closesAll_iff hl hb).mp hc).2
  omega

end HeaderOutline
