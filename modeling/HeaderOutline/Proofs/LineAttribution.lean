import HeaderOutline.Proofs.DocTargets
import HeaderOutline.HeaderFile
/-!
# The line of a construct

A construct is reported under the number of the fragment that it is matched in. The fragment has
that number from its first line. It may have taken other lines along, and what a match leaves of it
goes back under the same number, so the next construct may begin in one of the joined lines and
still be reported under the first.

Where a construct begins is told by counting. Blanks apart, the pieces that have been taken and the
pending text make up the header, so the number of characters in the pieces before is the place of
the next one, and `numberAt?` gives the line of a place. A fragment is an end of its lines, joined;
its first character lies in the first of them unless the fragment is an end of the other lines
alone (`solid_lt_of_not_suffix`).

Results:
* `solid_pending_of_reads`: what has been taken and what is pending make up the header.
* `numberAt?_of_remnant`: the line on which a fragment begins.
* `line_of_construct`: a construct is reported under no later line than its own, and under its own
  unless nothing is left of the first line of its fragment.
-/
namespace HeaderOutline
open Text State

/-! ## Places -/

/-- The number of the line on which the character of index `k` stands. Blanks do not count. -/
def numberAt? : List SourceLine → Nat → Option Nat
  | [], _ => none
  | l :: ls, k =>
    if k < (solid l.text).length then some l.number
    else numberAt? ls (k - (solid l.text).length)

theorem numberAt?_append (as bs : List SourceLine) (k : Nat) :
    numberAt? (as ++ bs) ((solid (textOfLines as)).length + k) = numberAt? bs k := by
  induction as with
  | nil => simp [textOfLines, solid]
  | cons a as ih =>
    rw [textOfLines_cons, solid_append, List.length_append, List.cons_append, numberAt?,
      if_neg (by omega), ← ih]
    congr 1
    omega

theorem exists_numberAt? {ls : List SourceLine} {k : Nat}
    (h : k < (solid (textOfLines ls)).length) (ms : List SourceLine) :
    ∃ l ∈ ls, numberAt? (ls ++ ms) k = some l.number := by
  induction ls generalizing k with
  | nil => cases h
  | cons l ls ih =>
    rw [textOfLines_cons, solid_append, List.length_append] at h
    rw [List.cons_append, numberAt?]
    split
    · exact ⟨l, List.mem_cons_self, rfl⟩
    · obtain ⟨m, hm, heq⟩ := ih (k := k - (solid l.text).length) (by omega)
      exact ⟨m, List.mem_cons_of_mem l hm, heq⟩

/-! ## Texts that begin with something to read -/

def BeginsSolid (cs : List Char) : Prop :=
  ∃ c r, cs = c :: r ∧ isBlank c = false

theorem BeginsSolid.append {cs : List Char} (h : BeginsSolid cs) (ds : List Char) :
    BeginsSolid (cs ++ ds) := by
  obtain ⟨c, r, rfl, hc⟩ := h
  exact ⟨c, r ++ ds, rfl, hc⟩

theorem BeginsSolid.solid_pos {cs : List Char} (h : BeginsSolid cs) : 0 < (solid cs).length := by
  obtain ⟨c, r, rfl, hc⟩ := h
  simp [solid, hc]

theorem beginsSolid_trimStart {cs : List Char} (h : (trimStart cs).isEmpty = false) :
    BeginsSolid (trimStart cs) := by
  rcases trimStart_eq_nil_or cs with h0 | h1
  · rw [h0] at h
    cases h
  · exact h1

theorem beginsSolid_of_mem_ofLines {m : SourceLine.Mode} {n : Nat} {ls : List (List Char)} :
    ∀ l ∈ SourceLine.ofLines m n ls, BeginsSolid l.text := by
  induction ls generalizing m n with
  | nil => exact fun l hl => by cases hl
  | cons k ls ih =>
    simp only [SourceLine.ofLines]
    split
    · exact ih
    · next hne =>
      intro l hl
      rcases List.mem_cons.mp hl with rfl | hl
      · simp only [← trimStart_trimEnd] at hne ⊢
        exact beginsSolid_trimStart (Bool.eq_false_iff.mpr hne)
      · exact ih l hl

/-- What a step leaves begins with something to read where its lines do. -/
theorem Cut.beginsSolid {line : SourceLine} {later left : List SourceLine} {text : List Char}
    (hc : Cut line later text left) (h : ∀ l ∈ line :: later, BeginsSolid l.text) :
    ∀ l ∈ left, BeginsSolid l.text := by
  cases hc with
  | @parted rest n _ =>
    have hdrop : ∀ l ∈ later.drop n, BeginsSolid l.text := fun l hl =>
      h l (List.mem_cons_of_mem line (List.mem_of_mem_drop hl))
    unfold requeue
    simp only
    split
    · exact hdrop
    · next hne =>
      intro l hl
      rcases List.mem_cons.mp hl with rfl | hl
      · exact beginsSolid_trimStart (Bool.eq_false_iff.mpr hne)
      · exact hdrop l hl
  | @joined next more he =>
    intro l hl
    rcases List.mem_cons.mp hl with rfl | hl
    · exact (h line List.mem_cons_self).append _
    · exact h l (by rw [he]; simp [hl])

/-! ## Along a course -/

namespace State

variable {a s : State} {es : List Entry}

/-- What has been taken and what is pending make up what was pending at first, but for blanks. -/
theorem solid_pending_of_reads (h : Reads a es s) :
    ∃ ps, a.pieces = ps ++ s.pieces ∧
      solid (textOfLines a.pending) = solid (taken ps) ++ solid (textOfLines s.pending) := by
  induction h with
  | refl s => exact ⟨[], rfl, rfl⟩
  | @next s t u line later es fs hp hs _ ih =>
    obtain ⟨ps, hps, heq⟩ := ih
    refine ⟨s.piece line later :: ps, by rw [pieces_of_step hp hs, hps, List.cons_append], ?_⟩
    have hx : solid (taken (s.piece line later :: ps)) =
        solid (s.piece line later).text ++ solid (taken ps) := solid_append ..
    rw [hp, (cut_step hs).solid_eq, heq, hx, List.append_assoc]

theorem beginsSolid_of_reads (h : Reads a es s) (ha : ∀ l ∈ a.pending, BeginsSolid l.text) :
    ∀ l ∈ s.pending, BeginsSolid l.text := by
  refine h.invariant (p := fun s => ∀ l ∈ s.pending, BeginsSolid l.text) ha ?_
  intro s t line later es fs _ hp hs ih
  exact (cut_step hs).beginsSolid (hp ▸ ih)

end State

/-! ## The line on which a fragment begins -/

theorem solid_joinedText (ls : List SourceLine) :
    solid (joinedText ls) = solid (textOfLines ls) := by
  cases ls with
  | nil => rfl
  | cons l ls => rw [joinedText, solid_withLines, textOfLines_cons, solid_append]

theorem suffix_joinedText (g : SourceLine) (js : List SourceLine) :
    joinedText js <:+ joinedText (g :: js) := by
  cases js with
  | nil => exact List.nil_suffix
  | cons j js => exact suffix_withLines ⟨g.text ++ [' '], by simp⟩ js

theorem length_solid_of_suffix {as bs : List Char} (h : as <:+ bs) :
    (solid as).length ≤ (solid bs).length :=
  (List.IsSuffix.filter _ h).length_le

/-- A fragment that is no end of the joined lines alone has more to read than these. -/
theorem solid_lt_of_not_suffix {text : List Char} {g : SourceLine} {js : List SourceLine}
    (hb : BeginsSolid text) (h : text <:+ joinedText (g :: js)) (hn : ¬ text <:+ joinedText js) :
    (solid (textOfLines js)).length < (solid text).length := by
  rw [← solid_joinedText]
  obtain ⟨lead, rfl⟩ :=
    (List.suffix_or_suffix_of_suffix h (suffix_joinedText g js)).resolve_left hn
  obtain ⟨c, r, heq, hc⟩ := hb
  cases lead with
  | nil => exact absurd (List.suffix_refl _) hn
  | cons d lead =>
    obtain ⟨rfl, -⟩ := List.cons.inj heq
    have hpos := BeginsSolid.solid_pos ⟨d, lead, rfl, hc⟩
    rw [solid_append, List.length_append]
    omega

/-- The place of a fragment: it begins on the line that gives it its number, unless it is an end of
the joined lines alone, and then it begins on a later one. -/
theorem numberAt?_of_remnant {lines ls later : List SourceLine} {line : SourceLine} {place : Nat}
    (hl : lines.Pairwise (·.number < ·.number)) (hr : Remnant lines line later ls)
    (hb : BeginsSolid line.text)
    (hplace : (solid (textOfLines lines)).length =
      place + (solid (textOfLines (line :: later))).length) :
    ∃ n, numberAt? lines place = some n ∧ line.number ≤ n ∧
      (line.number = n ↔ ¬ line.text <:+ joinedText ls.tail) := by
  obtain ⟨before, rfl⟩ := hr.suffix
  obtain ⟨g, js, rfl⟩ : ∃ g js, ls = g :: js := by
    cases ls with
    | nil => cases hr.number
    | cons g js => exact ⟨g, js, rfl⟩
  have hg : g.number = line.number := Option.some.inj hr.number
  have hlt : ∀ j ∈ js, g.number < j.number := fun j hj =>
    (List.pairwise_cons.mp (List.pairwise_append.mp (List.pairwise_append.mp hl).2.1).1).1 j hj
  have hpos := hb.solid_pos
  have hle := length_solid_of_suffix hr.text
  rw [solid_joinedText] at hle
  simp only [textOfLines_append, textOfLines_cons, solid_append, List.length_append] at hplace hle
  -- The place is counted from the first of the lines of the fragment.
  obtain ⟨k, rfl⟩ : ∃ k, place = (solid (textOfLines before)).length + k :=
    ⟨place - (solid (textOfLines before)).length, by omega⟩
  rw [numberAt?_append, List.cons_append, numberAt?, ← hg]
  by_cases hs : line.text <:+ joinedText js
  · have hsuf := length_solid_of_suffix hs
    rw [solid_joinedText] at hsuf
    rw [if_neg (by omega)]
    have hk : k - (solid g.text).length < (solid (textOfLines js)).length := by omega
    obtain ⟨j, hj, heq⟩ := exists_numberAt? hk later
    have := hlt j hj
    exact ⟨j.number, heq, by omega, by simpa [hs] using by omega⟩
  · have hgt := solid_lt_of_not_suffix hb hr.text hs
    rw [if_pos (by omega)]
    exact ⟨g.number, rfl, Nat.le_refl _, by simpa using hs⟩

/-! ## Constructs -/

/-- The dispatch of `line` in the state `s`, with `later` pending behind it, reports `c`. -/
structure Reports (source : String) (s : State) (line : SourceLine) (later : List SourceLine)
    (c : Callback) : Prop where
  reachable : Reachable source s
  pending : s.pending = line :: later
  reported : ∃ es t, s.step line later = (es, .ok t) ∧ c ∈ callbacksOf es

theorem Event.isStructural_of_isConstruct {e : Event} (h : e.isConstruct = true) :
    e.isStructural = true := by
  cases e <;> first | rfl | cases h

theorem isConstruct_of_ofEvent? {e : Event} {s : DocSubject} (h : DocSubject.ofEvent? e = some s) :
    e.isConstruct = true := by
  cases e <;> first | rfl | cases h

def Outline.lines (o : Outline) : List Nat :=
  o.macros.map (·.line) ++ o.namespaces.map (·.line) ++ o.classes.map (·.line) ++
    o.enums.map (·.line) ++ o.functions.map (·.line)

theorem exists_callback_of_mem_lines {cs : List Callback} {n : Nat}
    (h : n ∈ (Outline.ofCallbacks cs).lines) :
    ∃ c ∈ cs, c.event.isConstruct = true ∧ c.line = n := by
  have pick : ∀ {α : Type} {item? : Callback → Option α} {line : α → Nat},
      (∀ c a, item? c = some a → c.event.isConstruct = true ∧ c.line = line a) →
      n ∈ (cs.filterMap item?).map line → ∃ c ∈ cs, c.event.isConstruct = true ∧ c.line = n := by
    intro α item? line hitem hn
    obtain ⟨a, ha, rfl⟩ := List.mem_map.mp hn
    obtain ⟨c, hc, heq⟩ := List.mem_filterMap.mp ha
    exact ⟨c, hc, hitem c a heq⟩
  simp only [Outline.lines, List.mem_append] at h
  rcases h with (((h | h) | h) | h) | h <;> refine pick ?_ h <;> rintro ⟨e, n, fs⟩ a ha <;>
    cases e <;> cases ha <;> exact ⟨rfl, rfl⟩

/-- Every construct is reported by a dispatch. It begins where that fragment begins, behind the
pieces that were taken before, and it is reported under no later line than that. The line is the
right one exactly when something is left in the fragment of the first of its lines. Items of the
outline and documentation targets have the lines of constructs. -/
theorem line_of_construct (source : String) :
    (∀ c ∈ (parse source).callbacks, c.event.isConstruct = true →
      ∃ s line later, Reports source s line later c) ∧
    (∀ s line later c, Reports source s line later c → c.event.isConstruct = true →
      BeginsSolid line.text ∧
      ∃ ls ps qs n, Remnant (SourceLine.ofSource source.toList) line later ls ∧
        piecesOf source = ps ++ s.piece line later :: qs ∧
        numberAt? (SourceLine.ofSource source.toList) (solid (taken ps)).length = some n ∧
        c.line ≤ n ∧ (c.line = n ↔ ¬ line.text <:+ joinedText ls.tail)) ∧
    (∀ t ∈ targetsOf source,
      ∃ c ∈ (parse source).callbacks, c.event.isConstruct = true ∧ c.line = t.line) ∧
    ∀ o, outline source = .ok o → ∀ n ∈ o.lines,
      ∃ c ∈ (parse source).callbacks, c.event.isConstruct = true ∧ c.line = n := by
  refine ⟨fun c hc hk => ?reported, fun s line later c h hk => ?attributed, fun t ht => ?targets,
    fun o ho n hn => ?items⟩
  case reported =>
    obtain ⟨s, line, later, es, t, hs, hp, hstep, hmem⟩ :=
      exists_step_of_mem_callbacks hc (Event.isStructural_of_isConstruct hk)
    exact ⟨s, line, later, hs, hp, es, t, hstep, hmem⟩
  case attributed =>
    obtain ⟨⟨fs, hr⟩, hp, es, t, hstep, hmem⟩ := h
    have hnumber := (found?_of_mem_step hstep hmem (Event.isStructural_of_isConstruct hk)).1
    have hb : BeginsSolid line.text :=
      beginsSolid_of_reads hr beginsSolid_of_mem_ofLines line (by rw [hp]; exact List.mem_cons_self)
    obtain ⟨ls, hls, -⟩ := remnant_of_reads hr hp
    obtain ⟨ps, hps, hsolid⟩ := solid_pending_of_reads hr
    rw [hp] at hsolid
    obtain ⟨n, hn, hle, hiff⟩ := numberAt?_of_remnant (SourceLine.pairwise_ofLines ..) hls hb
      (by rw [← List.length_append, ← hsolid]; rfl)
    rw [hnumber]
    exact ⟨hb, ls, ps, t.pieces, n, hls, hps.trans (by rw [pieces_of_step hp hstep]), hn, hle, hiff⟩
  case targets =>
    obtain ⟨c, hc, heq⟩ := List.mem_filterMap.mp ht
    obtain ⟨subject, he, rfl⟩ := Option.map_eq_some_iff.mp heq
    exact ⟨c, hc, isConstruct_of_ofEvent? he, rfl⟩
  case items =>
    obtain ⟨f, -, rfl⟩ := exists_of_outline ho
    exact exists_callback_of_mem_lines hn

/-- Two functions behind a template head. -/
def secondFunction : String :=
  "template <typename T>\nvoid f(); void g();\n"

/-- The second function begins on the second line and is reported under the first. -/
theorem line_of_construct_secondFunction :
    (parse secondFunction).result = .ok ⟨⟨2, 2, 0⟩, ⟨3, 2, 1, 0⟩, 2⟩ ∧
    (piecesOf secondFunction).length = 3 ∧
      numberAt? (SourceLine.ofSource secondFunction.toList)
        (solid (taken ((piecesOf secondFunction).take 2))).length = some 2 ∧
      (targetsOf secondFunction).map (·.line) = [1, 1] ∧
      ∃ c ∈ (parse secondFunction).callbacks, c.event.isConstruct = true ∧ c.line = 1 ∧
        ∃ s line later, Reports secondFunction s line later c ∧ BeginsSolid line.text := by
  have hc : ∃ c ∈ (parse secondFunction).callbacks, c.event.isConstruct = true ∧ c.line = 1 := by
    decide +kernel
  refine ⟨by decide +kernel, by decide +kernel, by decide +kernel, by decide +kernel, ?_⟩
  obtain ⟨c, hmem, hk, hline⟩ := hc
  obtain ⟨s, line, later, h⟩ := (line_of_construct secondFunction).1 c hmem hk
  exact ⟨c, hmem, hk, hline, s, line, later, h,
    ((line_of_construct secondFunction).2.1 s line later c h hk).1⟩

end HeaderOutline
