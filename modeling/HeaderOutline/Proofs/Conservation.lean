import HeaderOutline.Proofs.Balance
import HeaderOutline.Proofs.Dispatches
/-!
# No text is lost

Text moves between the pending lines and the fragments in five ways: the rest behind a match goes
back, an unmatched fragment is joined with the next line, a macro and an enum take lines along, and
what is left at the end of input is given up. In all of them a step either parts the text of its
line, with some lines joined to it, or takes nothing and joins one line. Only blanks come and go:
the separator of a join, and what is trimmed where a text is parted.

Results:
* `cut_step`: the two ways in which a step goes about the pending text.
* `solid_taken`: the pieces of a reading make up the text of its lines, but for blanks.
-/
namespace HeaderOutline
open Text Declaration

/-! ## Texts without blanks -/

/-- The characters of a text that are not blank. -/
def solid (cs : List Char) : List Char :=
  cs.filter fun c => !isBlank c

def textOfLines (ls : List SourceLine) : List Char :=
  ls.flatMap (·.text)

theorem solid_append (as bs : List Char) : solid (as ++ bs) = solid as ++ solid bs :=
  List.filter_append ..

theorem solid_trimStart (cs : List Char) : solid (trimStart cs) = solid cs := by
  induction cs with
  | nil => rfl
  | cons c cs ih =>
    cases h : isBlank c with
    | false => rw [trimStart_cons h]
    | true => rw [trimStart_blank h, ih]; simp [solid, h]

theorem textOfLines_cons (l : SourceLine) (ls : List SourceLine) :
    textOfLines (l :: ls) = l.text ++ textOfLines ls :=
  List.flatMap_cons ..

theorem textOfLines_append (ls ms : List SourceLine) :
    textOfLines (ls ++ ms) = textOfLines ls ++ textOfLines ms :=
  List.flatMap_append ..

theorem solid_join (text next : List Char) :
    solid (text ++ ' ' :: next) = solid text ++ solid next := by
  rw [solid_append]
  rfl

theorem solid_withLines (text : List Char) (ls : List SourceLine) :
    solid (withLines text ls) = solid text ++ solid (textOfLines ls) := by
  induction ls generalizing text with
  | nil => exact (List.append_nil _).symm
  | cons l ls ih =>
    rw [show withLines text (l :: ls) = withLines (text ++ ' ' :: l.text) ls from rfl, ih,
      solid_join, textOfLines_cons, solid_append, List.append_assoc]

theorem solid_requeue (number : Nat) (rest : List Char) (later : List SourceLine) :
    solid (textOfLines (requeue number rest later)) = solid rest ++ solid (textOfLines later) := by
  unfold requeue
  simp only
  split
  · next h =>
    rw [← solid_trimStart rest, List.isEmpty_iff.mp h]
    rfl
  · rw [textOfLines_cons, solid_append, solid_trimStart]

/-! ## One step -/

/-- What a step that takes `line` and `text` makes of the pending lines `later`. -/
inductive Cut (line : SourceLine) (later : List SourceLine) : List Char → List SourceLine → Prop
  /-- The text of the line, with the first `n` lines joined to it, is parted. -/
  | parted {rest : List Char} (n : Nat) : rest <:+ withLines line.text (later.take n) →
      Cut line later (front (withLines line.text (later.take n)) (trimStart rest))
        (requeue line.number rest (later.drop n))
  /-- Nothing is taken, and the next line is joined. -/
  | joined {next : SourceLine} {more : List SourceLine} : later = next :: more →
      Cut line later [] (⟨line.number, line.text ++ ' ' :: next.text⟩ :: more)

theorem front_nil (cs : List Char) : front cs [] = cs := by
  simp [front]

/-- The first lines are taken to their end. -/
theorem Cut.whole (line : SourceLine) (later : List SourceLine) (n : Nat) :
    Cut line later (withLines line.text (later.take n)) (later.drop n) := by
  have h := @Cut.parted line later [] n List.nil_suffix
  rw [show trimStart [] = [] from rfl, front_nil] at h
  exact h

/-- What is taken of the pending text and what is left of it make it up, but for blanks. -/
theorem Cut.solid_eq {line : SourceLine} {later left : List SourceLine} {text : List Char}
    (h : Cut line later text left) :
    solid (textOfLines (line :: later)) =
      solid text ++ solid (textOfLines left) := by
  cases h with
  | @parted rest n hs =>
    have hf := front_append ((trimStart_suffix rest).trans hs)
    rw [solid_requeue, ← solid_trimStart rest, ← List.append_assoc, ← solid_append, hf,
      solid_withLines, List.append_assoc, ← solid_append, ← textOfLines_append,
      List.take_append_drop, ← solid_append, textOfLines_cons]
  | @joined next more he =>
    rw [he]
    simp only [textOfLines_cons, solid_append, List.append_assoc]
    rfl

namespace State

variable {s t : State} {line : SourceLine} {later : List SourceLine} {es : List Entry}

theorem cut_act {rest : List Char} {k : Construct} (h : s.act line rest k = (es, .ok t))
    (hs : rest <:+ line.text) (hd : ∀ name value, k = .define name value → rest = []) :
    Cut line s.pending (takenText line.text s.pending rest k) t.pending := by
  rw [pending_act h]
  cases k with
  | enumHead =>
    obtain ⟨n, hn, -, hg, hr⟩ := suffix_gatherEnum 0 line.text s.pending
    rw [Nat.zero_add] at hn
    simp only [leftLines, takenText, hn, hg]
    exact .parted n hr
  | define name value =>
    obtain rfl := hd name value rfl
    have hj := List.suffix_iff_eq_drop.mp (suffix_joinLines value s.pending)
    have hc := Cut.whole line s.pending (s.pending.length - (joinLines value s.pending).2.length)
    rw [← hj] at hc
    exact hc
  | _ => exact @Cut.parted line s.pending rest 0 hs

theorem cut_dispatch (h : s.dispatch line = (es, .ok t)) :
    Cut line s.pending (s.piece line s.pending).text t.pending := by
  unfold piece
  rcases dispatch_cases h with ⟨hm, hu⟩ | ⟨rule, k, rest, fs, hm, -, ha⟩
  · rw [hm]
    have hc : s.countDispatched.pending = s.pending := rfl
    unfold unmatched at hu
    rw [hc] at hu
    cases hp : s.pending with
    | nil =>
      rw [hp] at hu
      cases hu
      have hg := Cut.whole line [] 0
      rw [show (countDiscarded s.countDispatched).pending = [] from hp]
      exact hg
    | cons next more =>
      rw [hp] at hu
      cases hu
      exact .joined rfl
  · rw [hm]
    obtain ⟨-, hr⟩ := Rule.recognize?_of_match? hm
    exact cut_act (s := s.countDispatched) ha (Rule.suffix_of_match? hm)
      fun name value hk => Rule.eq_nil_of_define (hk ▸ hr)

theorem cut_step (h : s.step line later = (es, .ok t)) :
    Cut line later (s.piece line later).text t.pending := by
  simp only [step, Prod.mk.injEq] at h
  obtain ⟨-, ht⟩ := h
  have hc := cut_dispatch (Prod.ext rfl ht)
  rwa [pending_enter, piece, found?_enter, ← piece] at hc

/-! ## Whole courses -/

/-- The pieces of a course that comes to its end make up the pending text, but for blanks. -/
theorem solid_of_reads (h : Reads s es t) (ht : t.pending = []) :
    solid (taken s.pieces) = solid (textOfLines s.pending) := by
  induction h with
  | refl s => rw [pieces_of_pending_nil ht, ht]; rfl
  | @next s t u line later es fs hp hs _ ih =>
    rw [pieces_of_step hp hs, hp, (cut_step hs).solid_eq, ← ih ht]
    exact solid_append ..

/-- A course that comes to its end takes one piece with each dispatch. -/
theorem length_pieces_of_reads (h : Reads s es t) (ht : t.pending = []) :
    s.tally.dispatched + s.pieces.length = t.tally.dispatched := by
  induction h with
  | refl s => rw [pieces_of_pending_nil ht]; rfl
  | next hp hs _ ih =>
    have h1 := ih ht
    have h2 := (tally_step hs).1
    rw [pieces_of_step hp hs, List.length_cons]
    omega

end State

/-! ## Whole headers -/

/-- When the reading of a header succeeds, its pieces, one for each dispatch, make up the text of
its lines: nothing is lost, taken twice or taken out of order but blanks. -/
theorem solid_taken {source : String} {f : Finished} (h : (parse source).result = .ok f) :
    (piecesOf source).length = f.tally.dispatched ∧
      solid (taken (piecesOf source)) =
        solid (textOfLines (SourceLine.ofSource source.toList)) := by
  obtain ⟨es, t, hr, ⟨ht, -, g, hg, -, hc⟩ | ⟨_, _, _, e, -, -, -, he⟩⟩ := parse_cases source
  · obtain rfl : g = f := Except.ok.inj (hg.symm.trans h)
    have hl := State.length_pieces_of_reads hr ht
    rw [show (startOf source).tally.dispatched = 0 from rfl, Nat.zero_add] at hl
    exact ⟨hc ▸ hl, State.solid_of_reads hr ht⟩
  · rw [h] at he
    cases he

/-- A header whose text takes every way: a macro with a second line, an enum over three lines, a
declaration in two lines with text behind it, and an end that no rule matches. -/
def windingHeader : String :=
  "#define A 1 + \\\n  2\nenum E \x7b X,\n Y\n\x7d; int f(\n int n); int g();\nint"

theorem solid_taken_windingHeader :
    (parse windingHeader).result = .ok ⟨⟨7, 4, 0⟩, ⟨6, 4, 3, 1⟩, 7⟩ ∧
      (piecesOf windingHeader).length = 6 ∧
      solid (taken (piecesOf windingHeader)) =
        solid (textOfLines (SourceLine.ofSource windingHeader.toList)) := by
  have h : (parse windingHeader).result = .ok ⟨⟨7, 4, 0⟩, ⟨6, 4, 3, 1⟩, 7⟩ := by decide +kernel
  exact ⟨h, solid_taken h⟩

end HeaderOutline
