import HeaderOutline.Proofs.Pieces
import HeaderOutline.Proofs.Leads
import Mathlib.Algebra.GroupWithZero.Nat
/-!
# How often a reading dispatches

A match ends at a character of its fragment and takes something of it. The word `enum` alone takes
nothing, but the enum that is read behind it does, unless the lines run out. Joining a line adds one
separator and uses up the other line, so every dispatch lightens the pending text, and a reading
dispatches at most as often as its lines weigh. Text is given up only when no line is pending.

Results:
* `matchEnds_of_match?`, `enumEnds_gatherEnum`: where matches and enums end.
* `tally_step`: what one step does to the counts.
* `dispatched_of_reads`: counts and pending text never outweigh the lines.
* `dispatches_bounded`: all of this for any lines.
-/
namespace HeaderOutline
open Text Declaration

/-! ## Where matches end -/

/-- The place in a text, counted in bytes, at which its end `rest` begins. -/
def endOffset (cs rest : List Char) : String.Pos.Raw :=
  ⟨(String.ofList cs).utf8ByteSize - (String.ofList rest).utf8ByteSize⟩

/-- The text `rest` behind a match is an end of the fragment that begins at a character, and before
it the rule has taken at least one byte, unless it is that of the word `enum`. -/
structure MatchEnds (cs : List Char) (rule : Rule) (rest : List Char) : Prop where
  suffix : rest <:+ cs
  boundary : (endOffset cs rest).IsValid (String.ofList cs)
  inside : (endOffset cs rest).byteIdx ≤ (String.ofList cs).utf8ByteSize
  taken : rule ≠ .enumHead → 0 < (endOffset cs rest).byteIdx

theorem utf8ByteSize_cons (c : Char) (r : List Char) :
    (String.ofList (c :: r)).utf8ByteSize = c.utf8Size + (String.ofList r).utf8ByteSize := by
  have h : String.ofList (c :: r) = String.singleton c ++ String.ofList r := by
    rw [String.singleton_eq_ofList, ← String.ofList_append, List.singleton_append]
  rw [h, String.utf8ByteSize_append, String.utf8ByteSize_singleton]

theorem length_le_utf8ByteSize (cs : List Char) : cs.length ≤ (String.ofList cs).utf8ByteSize := by
  induction cs with
  | nil => exact Nat.zero_le _
  | cons c r ih =>
    have hc := c.utf8Size_pos
    rw [utf8ByteSize_cons, List.length_cons]
    omega

theorem endOffset_append (lead rest : List Char) :
    endOffset (lead ++ rest) rest = (String.ofList lead).rawEndPos := by
  rw [endOffset, String.ofList_append, String.utf8ByteSize_append, Nat.add_sub_cancel]
  rfl

theorem endOffset_isValid {cs rest : List Char} (h : rest <:+ cs) :
    (endOffset cs rest).IsValid (String.ofList cs) := by
  obtain ⟨lead, rfl⟩ := h
  exact String.Pos.Raw.isValid_iff_exists_append.mpr
    ⟨String.ofList lead, String.ofList rest, String.ofList_append, endOffset_append lead rest⟩

theorem endOffset_pos {cs rest : List Char} (h : rest <:+ cs) (hl : rest.length < cs.length) :
    0 < (endOffset cs rest).byteIdx := by
  obtain ⟨lead, rfl⟩ := h
  have hne : lead ≠ [] := by
    rintro rfl
    exact Nat.lt_irrefl _ hl
  rw [endOffset_append]
  exact Nat.lt_of_lt_of_le (List.length_pos_iff.mpr hne) (length_le_utf8ByteSize lead)

namespace Rule

/-- Only the rule of the word `enum` recognizes that word. -/
theorem eq_enumHead_of_recognize? {className : Option String} {cs rest : List Char} {rule : Rule}
    (h : recognize? className cs rule = some (.enumHead, rest)) : rule = .enumHead := by
  cases makes_of_recognize? h
  rfl

theorem matchEnds_of_match? {context : Context} {className : Option String} {cs rest : List Char}
    {k : Construct} {rule : Rule} (h : match? context className cs = some (rule, k, rest)) :
    MatchEnds cs rule rest where
  suffix := suffix_of_match? h
  boundary := endOffset_isValid (suffix_of_match? h)
  inside := Nat.sub_le ..
  taken hr := by
    refine endOffset_pos (suffix_of_match? h) (length_of_match? h ?_)
    rintro rfl
    exact hr (eq_enumHead_of_recognize? (recognize?_of_match? h).2)

end Rule

namespace State

/-- An enum either uses up all lines without an end, or ends at a character of its text with the
lines joined to it and takes at least one byte. -/
def EnumEnds (text : List Char) (later : List SourceLine) : Prop :=
  let g := gatherEnum 0 text later
  let joined := withLines text (later.take g.merges)
  (g.found = .outOfLines ∧ g.pending = []) ∨
    (g.rest <:+ joined ∧ (endOffset joined g.rest).IsValid (String.ofList joined) ∧
      0 < (endOffset joined g.rest).byteIdx)

theorem eq_nil_of_outOfLines {n : Nat} {text : List Char} {later : List SourceLine}
    (h : (gatherEnum n text later).found = .outOfLines) :
    (gatherEnum n text later).rest = [] ∧ (gatherEnum n text later).pending = [] := by
  fun_induction gatherEnum n text later with
  | case1 | case2 => cases h
  | case3 => exact ⟨rfl, rfl⟩
  | case4 _ _ _ _ _ _ ih => exact ih h

/-- An enum that ends leaves less than its text with the joined lines. -/
theorem length_rest_gatherEnum {n k : Nat} {text : List Char} {later : List SourceLine}
    (h : (gatherEnum n text later).found ≠ .outOfLines)
    (hk : (gatherEnum n text later).merges = n + k) :
    (gatherEnum n text later).rest.length < (withLines text (later.take k)).length := by
  fun_induction gatherEnum n text later generalizing k with
  | case1 later n text decl rest hd =>
    obtain rfl : k = 0 := by simp only at hk; omega
    exact length_of_enumDecl? hd
  | case2 later n text _ rest hs =>
    obtain rfl : k = 0 := by simp only at hk; omega
    exact length_of_afterStatement? hs
  | case3 => exact absurd rfl h
  | case4 n text _ _ l ls ih =>
    obtain ⟨j, hj, -⟩ := suffix_gatherEnum (n + 1) (text ++ ' ' :: l.text) ls
    obtain rfl : k = j + 1 := by omega
    exact ih h hj

theorem enumEnds_gatherEnum (text : List Char) (later : List SourceLine) :
    EnumEnds text later := by
  by_cases h : (gatherEnum 0 text later).found = .outOfLines
  · exact .inl ⟨h, (eq_nil_of_outOfLines h).2⟩
  · obtain ⟨k, hk, -, -, hs⟩ := suffix_gatherEnum 0 text later
    have hl := length_rest_gatherEnum h hk
    rw [Nat.zero_add] at hk
    rw [EnumEnds, hk]
    exact .inr ⟨hs, endOffset_isValid hs, endOffset_pos hs hl⟩

/-! ## Counts -/

variable {s t : State} {line : SourceLine} {later : List SourceLine} {es : List Entry}

theorem tally_perform (s : State) (k : Construct) :
    (s.perform k).2.tally.dispatched = s.tally.dispatched ∧
      (s.perform k).2.tally.discarded = s.tally.discarded := by
  unfold perform
  split <;> try exact ⟨rfl, rfl⟩
  · split <;> exact ⟨rfl, rfl⟩
  · unfold openBrace
    split
    · exact ⟨rfl, rfl⟩
    · split <;> exact ⟨rfl, rfl⟩

theorem tally_closeBrace {number : Nat} (h : s.closeBrace number = (es, .ok t)) :
    t.tally = s.tally := by
  unfold closeBrace at h
  simp only at h
  split at h
  · cases h
  · cases h
    rfl

theorem tally_readEnum (line : SourceLine) (s : State) :
    (s.readEnum line).2.tally.dispatched = s.tally.dispatched ∧
      ((s.readEnum line).2.tally.discarded = s.tally.discarded ∨
        (s.readEnum line).2.tally.discarded = s.tally.discarded + 1 ∧
          (s.readEnum line).2.pending = []) := by
  unfold readEnum
  simp only
  split
  · exact ⟨rfl, .inl rfl⟩
  · exact ⟨rfl, .inl rfl⟩
  · next hf =>
    refine ⟨rfl, .inr ⟨rfl, ?_⟩⟩
    obtain ⟨hr, hp⟩ := eq_nil_of_outOfLines hf
    simp [countDiscarded, countMerges, hp, hr, requeue, trimStart]

theorem tally_unmatched (line : SourceLine) (s : State) :
    (s.unmatched line).2.tally.dispatched = s.tally.dispatched ∧
      ((s.unmatched line).2.tally.discarded = s.tally.discarded ∨
        (s.unmatched line).2.tally.discarded = s.tally.discarded + 1 ∧
          (s.unmatched line).2.pending = []) := by
  unfold unmatched
  split
  · next hp => exact ⟨rfl, .inr ⟨rfl, hp⟩⟩
  · exact ⟨rfl, .inl rfl⟩

/-- A dispatch that succeeds is counted once, and gives text up only when no line is left. -/
theorem tally_dispatch (h : s.dispatch line = (es, .ok t)) :
    t.tally.dispatched = s.tally.dispatched + 1 ∧
      (t.tally.discarded = s.tally.discarded ∨
        t.tally.discarded = s.tally.discarded + 1 ∧ t.pending = []) := by
  rcases dispatch_cases h with ⟨-, hu⟩ | ⟨rule, k, rest, fs, -, -, ha⟩
  · have hc := tally_unmatched line s.countDispatched
    rwa [hu] at hc
  · rcases act_cases ha with ⟨-, hr⟩ | ⟨-, _, u, hc, -, rfl⟩ | ⟨-, -, -, rfl⟩
    · have hr' := tally_readEnum line s.countDispatched
      rwa [hr] at hr'
    · have hu : u.tally = s.countDispatched.tally := tally_closeBrace hc
      rw [show (putBack line.number rest u).2.tally = s.countDispatched.tally from hu]
      exact ⟨rfl, .inl rfl⟩
    · obtain ⟨h1, h2⟩ := tally_perform s.countDispatched k
      exact ⟨h1, .inl h2⟩

theorem tally_step (h : s.step line later = (es, .ok t)) :
    t.tally.dispatched = s.tally.dispatched + 1 ∧
      (t.tally.discarded = s.tally.discarded ∨
        t.tally.discarded = s.tally.discarded + 1 ∧ t.pending = []) := by
  simp only [step, Prod.mk.injEq] at h
  obtain ⟨-, ht⟩ := h
  have hd := tally_dispatch (Prod.ext rfl ht)
  rwa [(enter_fields line _).2.2] at hd

/-! ## Whole courses -/

/-- What has been dispatched and what is pending never outweigh the lines. -/
theorem dispatched_of_reads (h : Reads s es t) :
    t.tally.dispatched + weight t.pending ≤ s.tally.dispatched + weight s.pending := by
  induction h with
  | refl => exact Nat.le_refl _
  | next hp hs _ ih =>
    have h1 := (tally_step hs).1
    have h2 := weight_step (by rw [hs])
    rw [← hp] at h2
    omega

/-- Text is given up at most once, and nothing is dispatched after that. -/
theorem discarded_of_reads (h : Reads s es t) :
    t.tally.discarded = s.tally.discarded ∨
      t.tally.discarded = s.tally.discarded + 1 ∧ t.pending = [] := by
  induction h with
  | refl => exact .inl rfl
  | next hp hs hr ih =>
    rcases (tally_step hs).2 with h1 | ⟨h1, h2⟩
    · rwa [h1] at ih
    · -- The course ends here: no line is pending.
      cases hr with
      | refl => exact .inr ⟨h1, h2⟩
      | next hp' => rw [h2] at hp'; cases hp'

end State

/-- The lines in bytes, each with two more. -/
def byteBound (lines : List SourceLine) : Nat :=
  (lines.map fun l => (String.ofList l.text).utf8ByteSize + 2).sum

theorem weight_le_byteBound (lines : List SourceLine) : weight lines ≤ byteBound lines := by
  induction lines with
  | nil => exact Nat.le_refl _
  | cons l ls ih =>
    have h1 := length_le_utf8ByteSize l.text
    have h2 : byteBound (l :: ls) = (String.ofList l.text).utf8ByteSize + 2 + byteBound ls := rfl
    rw [weight_cons]
    omega

open State

/-- The reading of any lines comes to an end. Wherever it stands, what a rule matches and what an
enum takes lie within the text, at a character and not at its start; it has dispatched no more than
the lines have bytes and twice their number; and it has given text up at most once, with no line
pending then, so that this dispatch is its last. -/
theorem dispatches_bounded (lines : List SourceLine) :
    (∃ es t, Reads (start lines) es t ∧ ((t.pending = [] ∧ (start lines).run.2 = .ok t) ∨
      ∃ line later fs e, t.pending = line :: later ∧ t.step line later = (fs, .error e) ∧
        t.tally.dispatched + 1 ≤ byteBound lines ∧ (start lines).run.2 = .error e)) ∧
    ∀ es t, Reads (start lines) es t →
      t.tally.dispatched ≤ byteBound lines ∧
      (t.tally.discarded = 0 ∨ t.tally.discarded = 1 ∧ t.pending = []) ∧
      ∀ line later, t.pending = line :: later → ∀ rule k rest,
        t.found? line = some (rule, k, rest) → MatchEnds line.text rule rest ∧
          (k = .enumHead → EnumEnds line.text later) := by
  have hb := weight_le_byteBound lines
  have hw : ∀ {es t}, Reads (start lines) es t → t.tally.dispatched + weight t.pending ≤
      weight lines := fun hr => by simpa [start] using dispatched_of_reads hr
  constructor
  · obtain ⟨es, t, hr, ht | ⟨line, later, fs, e, hp, hs⟩⟩ := exists_reads (start lines)
    · exact ⟨es, t, hr, .inl ⟨ht, by rw [run_of_reads hr ht]⟩⟩
    · have h1 := hw hr
      rw [hp, weight_cons] at h1
      exact ⟨es, t, hr, .inr ⟨line, later, fs, e, hp, hs, by omega,
        by rw [run_of_reads_error hr hp hs]⟩⟩
  · intro es t hr
    have h1 := hw hr
    refine ⟨by omega, by simpa [start] using discarded_of_reads hr, ?_⟩
    intro line later _ rule k rest hm
    exact ⟨Rule.matchEnds_of_match? hm, fun _ => enumEnds_gatherEnum line.text later⟩

end HeaderOutline
