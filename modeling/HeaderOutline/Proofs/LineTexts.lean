import HeaderOutline.Reading.State
/-!
# The texts of the lines

What a reading has before it of a text: the lines, trimmed, without the blank ones. How a text is
laid out in front of its first word does not matter, and what a match leaves of a line stands for
the text behind the match.

Results:
* `textLines_blank`: blanks in front of a text do not matter.
* `textLines_solid`: a text that begins with unbroken words has these at the front of its first
  line.
* `texts_requeue`: putting back the rest of a line gives the lines of the text that is left.
* `texts_ofSource`: the lines that are read of a header without comments.
-/
namespace HeaderOutline
open Text

/-! ## Trimming -/

theorem trimStart_cons {c : Char} (h : isBlank c = false) (cs : List Char) :
    trimStart (c :: cs) = c :: cs := by
  simp [trimStart, h]

theorem trimStart_blank {c : Char} (h : isBlank c = true) (cs : List Char) :
    trimStart (c :: cs) = trimStart cs := by
  simp [trimStart, h]

theorem trimStart_blanks {bs : List Char} (h : ∀ c ∈ bs, isBlank c = true) (cs : List Char) :
    trimStart (bs ++ cs) = trimStart cs :=
  List.dropWhile_append_of_pos h

theorem trimEnd_append (as bs : List Char) :
    trimEnd (as ++ bs) = if (trimEnd bs).isEmpty then trimEnd as else as ++ trimEnd bs := by
  simp only [trimEnd, trimStart, List.reverse_append, List.dropWhile_append, List.isEmpty_reverse]
  split
  · rfl
  · simp

theorem trimEnd_cons {c : Char} (h : isBlank c = false) (cs : List Char) :
    trimEnd (c :: cs) = c :: trimEnd cs := by
  have h1 : trimEnd [c] = [c] := by simp [trimEnd, trimStart, h]
  have h2 := trimEnd_append [c] cs
  rw [h1] at h2
  split at h2
  · next he => rw [List.isEmpty_iff.mp he]; exact h2
  · exact h2

theorem trimEnd_append_blank {c : Char} (h : isBlank c = true) (cs : List Char) :
    trimEnd (cs ++ [c]) = trimEnd cs := by
  have h1 : trimEnd [c] = [] := by simp [trimEnd, trimStart, h]
  rw [trimEnd_append, h1]
  rfl

/-- A text with something to keep at its end keeps all before that. -/
theorem trimEnd_append_of_last {c : Char} (h : isBlank c = false) (as bs : List Char) :
    trimEnd (as ++ c :: bs) = as ++ c :: trimEnd bs := by
  rw [trimEnd_append, trimEnd_cons h]
  rfl

theorem trimStart_eq_nil_or (cs : List Char) :
    trimStart cs = [] ∨ ∃ c r, trimStart cs = c :: r ∧ isBlank c = false := by
  induction cs with
  | nil => exact .inl rfl
  | cons c cs ih =>
    cases h : isBlank c with
    | true => rw [trimStart_blank h]; exact ih
    | false => exact .inr ⟨c, cs, trimStart_cons h cs, h⟩

/-- Something to keep behind a text keeps all but the blanks in front. -/
theorem trimStart_append {c : Char} (h : isBlank c = false) (as bs : List Char) :
    trimStart (as ++ c :: bs) = trimStart as ++ c :: bs := by
  rw [trimStart, trimStart, List.dropWhile_append]
  split
  · next he => simp [List.isEmpty_iff.mp he, h]
  · rfl

theorem trimEnd_front (cs : List Char) : trimEnd cs <+: cs := by
  have h := trimStart_suffix cs.reverse
  rw [← List.reverse_prefix] at h
  simpa [trimEnd] using h

theorem trimEnd_last {cs : List Char} (h : trimEnd cs ≠ []) :
    ∃ r c, trimEnd cs = r ++ [c] ∧ isBlank c = false := by
  rcases trimStart_eq_nil_or cs.reverse with h0 | ⟨c, r, hr, hc⟩
  · rw [trimEnd, h0] at h
    exact absurd rfl h
  · exact ⟨r.reverse, c, by rw [trimEnd, hr, List.reverse_cons], hc⟩

theorem trimStart_trimEnd (cs : List Char) : trimStart (trimEnd cs) = trim cs := by
  induction cs with
  | nil => rfl
  | cons c cs ih =>
    cases h : isBlank c with
    | false => rw [trimEnd_cons h, trimStart_cons h, trim, trimStart_cons h, trimEnd_cons h]
    | true =>
      have h1 := trimEnd_append [c] cs
      rw [trim, trimStart_blank h, ← trim, ← ih]
      rw [List.singleton_append] at h1
      rw [h1]
      split
      · next he =>
        rw [List.isEmpty_iff.mp he]
        simp [trimEnd, trimStart, h]
      · rw [List.singleton_append, trimStart_blank h]

/-! ## Lines -/

/-- The characters up to the next line feed. -/
def lineHead (cs : List Char) : List Char :=
  cs.takeWhile (· ≠ '\n')

def lineRest (cs : List Char) : List Char :=
  cs.dropWhile (· ≠ '\n')

/-- The characters up to the next line feed, without the blanks in front of that. -/
def lineEnd (cs : List Char) : List Char :=
  trimEnd (lineHead cs)

def textLines (cs : List Char) : List (List Char) :=
  ((lines cs).map trim).filter fun l => !l.isEmpty

def unlessEmpty (cs : List Char) : List (List Char) :=
  if cs.isEmpty then [] else [cs]

theorem trim_dropEnd (cs : List Char) : trim (dropEnd (cs ++ ['\n'])) = trim cs := by
  have hb : isBlank '\r' = true := by decide
  simp only [dropEnd, List.getLast?_concat, if_true, List.dropLast_concat]
  split
  · next h =>
    obtain ⟨r, rfl⟩ : ∃ r, cs = r ++ ['\r'] := by
      obtain ⟨r, hr⟩ := List.getLast?_eq_some_iff.mp h
      exact ⟨r, hr⟩
    rw [List.dropLast_concat, ← trimStart_trimEnd, ← trimStart_trimEnd, trimEnd_append_blank hb]
  · rfl

theorem textLines_newline (cs : List Char) : textLines ('\n' :: cs) = textLines cs := by
  simp [textLines, lines, rawLines, dropEnd, trim, trimEnd, trimStart]

theorem lineHead_append_lineRest (cs : List Char) : lineHead cs ++ lineRest cs = cs :=
  List.takeWhile_append_dropWhile

theorem lineHead_noBreak (cs : List Char) : '\n' ∉ lineHead cs := fun h => by
  simpa using List.all_eq_true.mp List.all_takeWhile _ h

/-- What follows a line is nothing, or a line feed and the other lines. -/
theorem lineRest_cases (cs : List Char) : lineRest cs = [] ∨ ∃ r, lineRest cs = '\n' :: r := by
  cases h : lineRest cs with
  | nil => exact .inl rfl
  | cons c r =>
    have hc := List.head?_dropWhile_not (· ≠ '\n') cs
    rw [← lineRest, h] at hc
    have hn : c = '\n' := by simpa using hc
    exact .inr ⟨r, by rw [hn]⟩

theorem rawLines_append_break {l : List Char} (h : '\n' ∉ l) (r : List Char) :
    rawLines (l ++ '\n' :: r) = (l ++ ['\n']) :: rawLines r := by
  induction l with
  | nil => rw [List.nil_append, rawLines, if_pos rfl]; rfl
  | cons c l ih =>
    rw [List.mem_cons, not_or] at h
    rw [List.cons_append, rawLines, if_neg (Ne.symm h.1), ih h.2]
    rfl

theorem rawLines_of_noBreak {l : List Char} (h : '\n' ∉ l) (hne : l ≠ []) : rawLines l = [l] := by
  induction l with
  | nil => exact absurd rfl hne
  | cons c l ih =>
    rw [List.mem_cons, not_or] at h
    rw [rawLines, if_neg (Ne.symm h.1)]
    cases l with
    | nil => rfl
    | cons d l => rw [ih h.2 (by simp)]

theorem dropEnd_of_noBreak {l : List Char} (h : '\n' ∉ l) : dropEnd l = l := by
  rw [dropEnd, if_neg fun hl => h (List.mem_of_getLast? hl)]

theorem dropEnd_front (l : List Char) : dropEnd l <+: l := by
  unfold dropEnd
  split
  · simp only
    split
    · exact (List.dropLast_prefix _).trans (List.dropLast_prefix _)
    · exact List.dropLast_prefix _
  · exact List.prefix_refl _

/-- The texts of a text are that of its first line, unless it is blank, and those of the rest. -/
theorem textLines_eq (cs : List Char) :
    textLines cs = unlessEmpty (trim (lineHead cs)) ++ textLines (lineRest cs) := by
  have hb := lineHead_noBreak cs
  have hcs := lineHead_append_lineRest cs
  have hone : ∀ l ls, List.filter (fun l => !l.isEmpty) (l :: ls) =
      unlessEmpty l ++ List.filter (fun l : List Char => !l.isEmpty) ls := fun l ls => by
    cases l <;> rfl
  rcases lineRest_cases cs with hr | ⟨r, hr⟩
  · rw [hr, List.append_nil] at hcs
    rw [hr, hcs]
    cases cs with
    | nil => rfl
    | cons c cs =>
      rw [hcs] at hb
      rw [textLines, lines, rawLines_of_noBreak hb (by simp), List.map_singleton,
        List.map_singleton, dropEnd_of_noBreak hb, hone]
      rfl
  · rw [hr] at hcs
    rw [hr, textLines_newline]
    conv => lhs; rw [← hcs]
    rw [textLines, lines, rawLines_append_break hb, List.map_cons, List.map_cons, trim_dropEnd,
      hone]
    rfl

/-! ## Blanks in front -/

theorem trim_blank {c : Char} (h : isBlank c = true) (cs : List Char) :
    trim (c :: cs) = trim cs := by
  rw [trim, trimStart_blank h, trim]

theorem textLines_blank {c : Char} (h : isBlank c = true) (cs : List Char) :
    textLines (c :: cs) = textLines cs := by
  by_cases hc : c = '\n'
  · rw [hc, textLines_newline]
  · have h1 : lineHead (c :: cs) = c :: lineHead cs := by simp [lineHead, hc]
    have h2 : lineRest (c :: cs) = lineRest cs := by simp [lineRest, hc]
    rw [textLines_eq (c :: cs), h1, h2, trim_blank h, ← textLines_eq]

theorem textLines_trimStart (cs : List Char) : textLines (trimStart cs) = textLines cs := by
  induction cs with
  | nil => rfl
  | cons c cs ih =>
    cases h : isBlank c with
    | false => rw [trimStart_cons h]
    | true => rw [trimStart_blank h, ih, textLines_blank h]

/-! ## Solid texts -/

/-- Words on one line, with blanks at most between them. -/
structure Solid (w : List Char) : Prop where
  head : ∃ c r, w = c :: r ∧ isBlank c = false
  last : ∃ r c, w = r ++ [c] ∧ isBlank c = false
  noBreak : '\n' ∉ w

theorem Solid.trim_append {w : List Char} (h : Solid w) (cs : List Char) :
    trim (w ++ cs) = w ++ trimEnd cs := by
  obtain ⟨c, r, hw, hc⟩ := h.head
  obtain ⟨r', c', hw', hc'⟩ := h.last
  have h1 : trimStart (w ++ cs) = w ++ cs := by rw [hw, List.cons_append, trimStart_cons hc]
  rw [trim, h1, hw', List.append_assoc, List.append_assoc, List.singleton_append,
    trimEnd_append_of_last hc', List.singleton_append]

theorem lineHead_append {w : List Char} (h : '\n' ∉ w) (cs : List Char) :
    lineHead (w ++ cs) = w ++ lineHead cs ∧ lineRest (w ++ cs) = lineRest cs := by
  have hw : ∀ c ∈ w, decide (c ≠ '\n') = true := fun c hc => by
    simpa using fun he : c = '\n' => h (he ▸ hc)
  exact ⟨List.takeWhile_append_of_pos hw, List.dropWhile_append_of_pos hw⟩

/-- A text that begins with unbroken words has these at the front of its first line. -/
theorem textLines_solid {w : List Char} (h : Solid w) (cs : List Char) :
    textLines (w ++ cs) = (w ++ lineEnd cs) :: textLines (lineRest cs) := by
  obtain ⟨h1, h2⟩ := lineHead_append h.noBreak cs
  obtain ⟨c, r, hw, -⟩ := h.head
  rw [textLines_eq, h1, h2, h.trim_append, unlessEmpty, hw]
  rfl

theorem ne_newline {c : Char} (h : isBlank c = false) : c ≠ '\n' := by
  rintro rfl
  revert h
  decide

theorem Solid.single {c : Char} (h : isBlank c = false) : Solid [c] :=
  ⟨⟨c, [], rfl, h⟩, ⟨[], c, rfl, h⟩, by simpa using (ne_newline h).symm⟩

theorem Solid.trimEnd {c : Char} {r : List Char} (h : isBlank c = false) (hn : '\n' ∉ c :: r) :
    Solid (trimEnd (c :: r)) := by
  have hne : Text.trimEnd (c :: r) ≠ [] := by rw [trimEnd_cons h]; simp
  exact ⟨⟨c, _, trimEnd_cons h r, h⟩, trimEnd_last hne, fun hm => hn ((trimEnd_front _).subset hm)⟩

/-- A text cut at a line feed: the blanks around that do not matter. -/
theorem textLines_break {c : Char} {r : List Char} (h : isBlank c = false) (hn : '\n' ∉ c :: r)
    (cs : List Char) :
    textLines (c :: r ++ '\n' :: cs) = textLines (trimEnd (c :: r) ++ '\n' :: trimStart cs) := by
  have h1 : trimEnd (c :: r) = c :: trimEnd r := trimEnd_cons h r
  have h2 : lineHead ('\n' :: cs) = [] ∧ lineRest ('\n' :: cs) = '\n' :: cs := ⟨rfl, rfl⟩
  have h3 : lineEnd ('\n' :: trimStart cs) = [] ∧
      lineRest ('\n' :: trimStart cs) = '\n' :: trimStart cs := ⟨rfl, rfl⟩
  obtain ⟨h4, h5⟩ := lineHead_append hn ('\n' :: cs)
  rw [textLines_solid (Solid.trimEnd h hn), h3.1, h3.2, textLines_newline, textLines_trimStart,
    textLines_eq, h4, h5, h2.1, h2.2, textLines_newline, List.append_nil, List.append_nil, trim,
    trimStart_cons h, h1]
  rfl

theorem lineEnd_append {w : List Char} (h : Solid w) (cs : List Char) :
    lineEnd (w ++ cs) = w ++ lineEnd cs := by
  obtain ⟨r, c, hw, hc⟩ := h.last
  rw [lineEnd, (lineHead_append h.noBreak cs).1, hw, List.append_assoc, List.append_assoc,
    List.singleton_append, trimEnd_append_of_last hc, List.singleton_append, lineEnd]

theorem lineEnd_space {c : Char} (h : isBlank c = false) (cs : List Char) :
    lineEnd (' ' :: c :: cs) = ' ' :: lineEnd (c :: cs) := by
  have h1 : lineHead (' ' :: c :: cs) = [' '] ++ c :: lineHead cs := by
    simp [lineHead, ne_newline h]
  have h2 : lineHead (c :: cs) = c :: lineHead cs := by simp [lineHead, ne_newline h]
  rw [lineEnd, lineEnd, h1, h2, trimEnd_append_of_last h, trimEnd_cons h]
  rfl

theorem lineRest_space (cs : List Char) : lineRest (' ' :: cs) = lineRest cs := by
  simp [lineRest]

/-- The lines of a text are the rest of its first one, unless that is blank, and the others. -/
theorem textLines_lineEnd (cs : List Char) :
    textLines cs = unlessEmpty (trimStart (lineEnd cs)) ++ textLines (lineRest cs) := by
  rw [textLines_eq, lineEnd, trimStart_trimEnd]

/-- Putting back the rest of a line gives the lines of the text that is left. -/
theorem texts_requeue {cs : List Char} {later : List SourceLine} (number : Nat)
    (h : later.map (·.text) = textLines (lineRest cs)) :
    (requeue number (lineEnd cs) later).map (·.text) = textLines cs := by
  rw [textLines_lineEnd, requeue, unlessEmpty, ← h]
  cases (trimStart (lineEnd cs)).isEmpty <;> rfl

/-! ## Headers without comments -/

/-- Nothing is quoted, and no slash stands before a slash or a star. -/
def noComment : List Char → Bool
  | [] => true
  | c :: r => !isQuote c && !(c == '/' && r.head?.any fun d => d == '/' || d == '*') && noComment r

theorem noComment_of_suffix {as bs : List Char} (h : noComment (as ++ bs) = true) :
    noComment bs = true := by
  induction as with
  | nil => exact h
  | cons c as ih =>
    rw [List.cons_append, noComment, Bool.and_eq_true] at h
    exact ih h.2

theorem noComment_of_front {as bs : List Char} (h : noComment (as ++ bs) = true) :
    noComment as = true := by
  induction as with
  | nil => rfl
  | cons c as ih =>
    rw [List.cons_append, noComment, Bool.and_eq_true, Bool.and_eq_true] at h
    rw [noComment, h.1.1, ih h.2]
    cases as with
    | nil => simp
    | cons d as => simpa using h.1.2

theorem strip_of_noComment {cs : List Char} (h : noComment cs = true) :
    SourceLine.strip .code cs = (cs, .code) := by
  induction cs with
  | nil => rfl
  | cons c cs ih =>
    rw [noComment, Bool.and_eq_true, Bool.and_eq_true, Bool.not_eq_true', Bool.not_eq_true'] at h
    obtain ⟨⟨hq, hs⟩, hr⟩ := h
    rw [SourceLine.strip, hq, if_neg Bool.false_ne_true, ih hr]
    · rintro r rfl rfl
      simp at hs
    · rintro r rfl rfl
      simp at hs

theorem noComment_of_mem_lines {cs l : List Char} (h : noComment cs = true) (hl : l ∈ lines cs) :
    noComment l = true := by
  obtain ⟨r, hr, rfl⟩ := List.mem_map.mp hl
  obtain ⟨as, bs, hcs⟩ := List.infix_of_mem_flatten hr
  rw [flatten_rawLines] at hcs
  rw [← hcs] at h
  have h1 := noComment_of_suffix (noComment_of_front h)
  obtain ⟨t, ht⟩ := dropEnd_front r
  rw [← ht] at h1
  exact noComment_of_front h1

theorem texts_ofLines {ls : List (List Char)} (h : ∀ l ∈ ls, noComment l = true) (n : Nat) :
    (SourceLine.ofLines .code n ls).map (·.text) =
      (ls.map trim).filter fun l => !l.isEmpty := by
  induction ls generalizing n with
  | nil => rfl
  | cons l ls ih =>
    have h1 := strip_of_noComment (h l List.mem_cons_self)
    have h2 := ih (fun k hk => h k (List.mem_cons_of_mem _ hk)) (n + 1)
    simp only [SourceLine.ofLines, h1, SourceLine.Mode.nextLine, List.map_cons, List.filter_cons]
    cases trim l with
    | nil => exact h2
    | cons c r => simp [h2]

/-- The lines that are read of a text without comments and quotes are its lines. -/
theorem texts_ofSource {cs : List Char} (h : noComment cs = true) :
    (SourceLine.ofSource cs).map (·.text) = textLines cs :=
  texts_ofLines (fun _ hl => noComment_of_mem_lines h hl) 1

end HeaderOutline
