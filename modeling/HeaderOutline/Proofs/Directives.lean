import HeaderOutline.Proofs.Continuations
import HeaderOutline.Proofs.OwnBraces
/-!
# Lines that begin with a number sign

A fragment that no rule matches takes the next line along, an open enum takes lines until it ends,
and a macro takes those that its backslashes continue it onto. None of them looks at what it takes.
A line that begins with `#` and that none of them takes is a fragment of its own: it comes to the
front as it stands, and one of the two rules that apply everywhere and before all others takes it
whole. No other fragment holds any of its text.

Results:
* `define?_iff`: which texts define a macro.
* `fragments_apart`: a line that is dispatched as it stands has no part in any other fragment.
* `directive_alone`: a line that begins with `#` and is joined to no other.
-/
namespace HeaderOutline
open Text

/-! ## Definitions of macros -/

/-- The text defines a macro of the name: blanks may follow the mark, and must follow the word. -/
def DefinesName (cs : List Char) (name : String) : Prop :=
  ∃ gap pad rest, cs = '#' :: (gap ++ ("define".toList ++ (pad ++ (name.toList ++ rest)))) ∧
    (∀ c ∈ gap, isBlank c = true) ∧ pad ≠ [] ∧ (∀ c ∈ pad, isBlank c = true) ∧
    name.toList ≠ [] ∧ (∀ c ∈ name.toList, isWordChar c = true) ∧ startsWord rest = false

/-- The word characters at the front of a text, up to the first other one. -/
theorem takeWhile_word {w rest : List Char} (hw : ∀ c ∈ w, isWordChar c = true)
    (hr : startsWord rest = false) :
    (w ++ rest).takeWhile isWordChar = w ∧ (w ++ rest).dropWhile isWordChar = rest := by
  rw [List.takeWhile_append_of_pos hw, List.dropWhile_append_of_pos hw]
  cases rest with
  | nil => simp
  | cons c r =>
    have hc : isWordChar c = false := by simpa [startsWord] using hr
    simp [hc]

theorem isBlank_of_isWordChar {c : Char} (h : isWordChar c = true) : isBlank c = false := by
  have hall : ∀ n ∈ [0x20, 0x85, 0xA0, 0x1680, 0x2028, 0x2029, 0x202F, 0x205F, 0x3000] ++
      List.range' 0x09 5 ++ List.range' 0x2000 11, isWordChar (Char.ofNat n) = false := by
    decide +kernel
  rw [Bool.eq_false_iff]
  intro hb
  have hmem : c.toNat ∈ [0x20, 0x85, 0xA0, 0x1680, 0x2028, 0x2029, 0x202F, 0x205F, 0x3000] ++
      List.range' 0x09 5 ++ List.range' 0x2000 11 := by
    simp only [isBlank, Bool.or_eq_true, Bool.and_eq_true, beq_iff_eq, decide_eq_true_eq] at hb
    simp only [List.mem_append, List.mem_cons, List.not_mem_nil, or_false, List.mem_range'_1]
    omega
  have hno := hall _ hmem
  rw [Char.ofNat_toNat, h] at hno
  cases hno

theorem define?_of_definesName {cs : List Char} {name : String} (h : DefinesName cs name) :
    ∃ value, Rule.define? cs = some (.define name value, []) := by
  obtain ⟨gap, pad, rest, rfl, hgap, hne, hpad, hname, hword, hrest⟩ := h
  have h1 : trimStart (gap ++ ("define".toList ++ (pad ++ (name.toList ++ rest)))) =
      "define".toList ++ (pad ++ (name.toList ++ rest)) := by
    rw [trimStart_blanks hgap]
    exact trimStart_cons (by decide) _
  have h2 : (pad ++ (name.toList ++ rest)).head?.any isBlank = true := by
    cases pad with
    | nil => exact absurd rfl hne
    | cons c pad => simpa using hpad c List.mem_cons_self
  have h3 : trimStart (pad ++ (name.toList ++ rest)) = name.toList ++ rest := by
    rw [trimStart_blanks hpad]
    cases hn : name.toList with
    | nil => exact absurd hn hname
    | cons c r =>
      exact trimStart_cons (isBlank_of_isWordChar (hword c (by rw [hn]; simp))) _
  obtain ⟨h4, h5⟩ := takeWhile_word hword hrest
  refine ⟨trim rest, ?_⟩
  simp only [Rule.define?, Option.bind_eq_bind, afterMark?, if_true, Option.bind_some, h1,
    after?_append, h2, h3, h4, h5, Bool.not_true, Bool.false_eq_true, if_false,
    List.isEmpty_eq_false_iff.mpr hname, String.ofList_toList]

/-- The texts that define a macro are those that the rule takes. -/
theorem define?_iff {cs : List Char} {name : String} :
    (∃ value rest, Rule.define? cs = some (.define name value, rest)) ↔ DefinesName cs name := by
  constructor
  · rintro ⟨value, rest, h⟩
    simp only [Rule.define?, Option.bind_eq_bind, Option.bind_eq_some_iff] at h
    obtain ⟨c1, h1, c2, h2, h⟩ := h
    split at h
    · cases h
    · next hblank =>
      split at h
      · cases h
      · next hname =>
        cases h
        have hgap := List.takeWhile_append_dropWhile (p := isBlank) (l := c1)
        have hpad := List.takeWhile_append_dropWhile (p := isBlank) (l := c2)
        have hword := List.takeWhile_append_dropWhile (p := isWordChar) (l := trimStart c2)
        have htext : (String.ofList ((trimStart c2).takeWhile isWordChar)).toList =
            (trimStart c2).takeWhile isWordChar := String.toList_ofList
        refine ⟨c1.takeWhile isBlank, c2.takeWhile isBlank, (trimStart c2).dropWhile isWordChar,
          ?_, List.all_eq_true.mp List.all_takeWhile, ?_, List.all_eq_true.mp List.all_takeWhile,
          ?_, ?_, ?_⟩
        · rw [htext, hword, trimStart, hpad, append_of_after? h2, trimStart, hgap,
            append_of_afterMark? h1]
        · cases c2 with
          | nil => simp at hblank
          | cons c r => simp_all
        · simpa using hname
        · rw [htext]
          exact List.all_eq_true.mp List.all_takeWhile
        · have hhead := List.head?_dropWhile_not isWordChar (trimStart c2)
          rw [startsWord]
          cases hd : ((trimStart c2).dropWhile isWordChar).head? with
          | none => rfl
          | some c => rw [hd] at hhead; simpa using hhead
  · intro h
    obtain ⟨value, h⟩ := define?_of_definesName h
    exact ⟨value, [], h⟩

/-! ## The lines that are joined -/

namespace State

/-- The lines that the dispatches of a reading join, in order. -/
def joinedLines (s : State) : List SourceLine :=
  match _hs : s.pending with
  | [] => []
  | line :: later =>
    match _h : s.step line later with
    | (_, .error _) => s.joined line later
    | (_, .ok next) => s.joined line later ++ joinedLines next
termination_by weight s.pending
decreasing_by
  rw [_hs]
  exact weight_step (by rw [_h])

variable {a s t : State} {l line : SourceLine} {later behind : List SourceLine} {es fs : List Entry}

theorem joined_subset (hp : s.pending = line :: later) :
    s.joined line later ⊆ s.joinedLines := by
  rw [joinedLines]
  split
  · next h => rw [hp] at h; cases h
  · next h =>
    rw [hp] at h
    cases h
    split
    · exact List.Subset.refl _
    · exact List.subset_append_left ..

theorem joinedLines_subset (hp : s.pending = line :: later) (hs : s.step line later = (es, .ok t)) :
    t.joinedLines ⊆ s.joinedLines := by
  rw [joinedLines.eq_def s]
  split
  · next h => rw [hp] at h; cases h
  · next h =>
    rw [hp] at h
    cases h
    split
    · next h => rw [hs] at h; cases h
    · next h =>
      rw [hs] at h
      cases h
      exact List.subset_append_right ..

theorem mem_joinedLines (h : JoinedFrom a l) : l ∈ a.joinedLines := by
  obtain ⟨es, s, line, later, hr, hp, hl⟩ := h
  have hsub : s.joinedLines ⊆ a.joinedLines :=
    hr.invariant (p := fun s => s.joinedLines ⊆ a.joinedLines) (List.Subset.refl _)
      fun _ hp hs ih => List.Subset.trans (joinedLines_subset hp hs) ih
  exact hsub (joined_subset hp hl)

/-! ## Fragments of their own -/

/-- Of lines whose numbers increase, those in front of others are different ones. -/
theorem not_mem_of_suffix {lines xs ys : List SourceLine}
    (hl : lines.Pairwise (·.number < ·.number)) (hs : xs ++ ys <:+ lines) {m : SourceLine}
    (hm : m ∈ xs) : m ∉ ys := fun hm' => by
  have hlt := (List.pairwise_append.mp (hl.sublist hs.sublist)).2.2 m hm m hm'
  omega

/-- A later part of the course is made of the lines that are still pending. -/
theorem suffix_of_reads (h : Reads s es t) (hp : s.pending = line :: later)
    (ht : t.pending = l :: behind) : behind <:+ later := by
  obtain ⟨ls, hls, -⟩ := remnant_of_reads h ht
  have hs := hls.suffix
  have hn := hls.number
  rw [hp] at hs
  cases ls with
  | nil => cases hn
  | cons g js =>
    rcases List.suffix_cons_iff.mp hs with heq | hs
    · obtain ⟨-, rfl⟩ := List.cons.inj heq
      exact List.suffix_append ..
    · exact (List.suffix_append (g :: js) behind).trans hs

theorem prefix_of_not_mem {α : Type} {xs before behind : List α} {x : α}
    (h : xs <+: before ++ x :: behind) (hx : x ∉ xs) : xs <+: before := by
  obtain ⟨ys, hys⟩ := h
  rcases List.append_eq_append_iff.mp hys with ⟨zs, rfl, -⟩ | ⟨zs, rfl, hzs⟩
  · exact List.prefix_append ..
  · cases zs with
    | nil => simp
    | cons z zs =>
      obtain ⟨rfl, -⟩ := List.cons.inj hzs
      exact absurd (by simp) hx

/-- A fragment that ends in a line which is joined to no other has no further line. -/
theorem eq_singleton_of_remnant {lines ls : List SourceLine}
    (h : Remnant lines line behind ls) (hl : l :: behind <:+ lines) (ht : l ∉ ls.tail) :
    ls = [l] := by
  have hlen : (l :: behind).length ≤ (ls ++ behind).length := by
    have hn := h.number
    cases ls with
    | nil => cases hn
    | cons g js => simp
  obtain ⟨before, hbefore⟩ := List.suffix_of_suffix_length_le hl h.suffix hlen
  have heq : before ++ [l] ++ behind = ls ++ behind := by simpa using hbefore
  obtain rfl := List.append_cancel_right heq
  cases before with
  | nil => rfl
  | cons g gs => exact absurd (by simp) ht

/-- Until a line that is joined to no other comes to the front, it is still to come. -/
theorem suffix_of_reads_before {u : State} {gs hs : List Entry} (hlines : l :: behind <:+ a.pending)
    (hj : ¬ JoinedFrom a l) (hu : Reads a gs u) (hup : u.pending = line :: later)
    (hus : Reads u hs s) (hp : s.pending = l :: behind) (hne : u ≠ s) : l :: behind <:+ later := by
  obtain ⟨ls, hls, htail⟩ := remnant_of_reads hu hup
  have hbehind := suffix_of_reads hus hup hp
  have hlater : later <:+ a.pending := (List.suffix_append ..).trans hls.suffix
  rcases List.suffix_or_suffix_of_suffix hlines hlater with h | h
  · exact h
  rcases List.suffix_cons_iff.mp h with rfl | h
  · exact List.suffix_refl _
  -- The fragment would be a text of the line, and no longer than it is at the dispatch.
  obtain rfl : later = behind := h.eq_of_length_le hbehind.length_le
  have hlen : line.text.length ≤ l.text.length := by
    obtain rfl := eq_singleton_of_remnant hls hlines fun hm => hj (htail l hm)
    exact hls.text.length_le
  have hw := (weight_of_reads hus).resolve_left hne
  rw [hp, hup, weight_cons, weight_cons] at hw
  omega

/-- Where a line that is joined to no other is dispatched as it stands and nothing of it is left,
neither that line nor those joined to it have a part in any other fragment, or are joined to one. -/
theorem fragments_apart (hl : a.pending.Pairwise (·.number < ·.number))
    (hlines : l :: behind <:+ a.pending) (hj : ¬ JoinedFrom a l) (hr : Reads a es s)
    (hp : s.pending = l :: behind) (hs : s.step l behind = (fs, .ok t))
    (hleft : behind = s.joined l behind ++ t.pending) {u : State} {gs : List Entry}
    (hu : Reads a gs u) (hup : u.pending = line :: later) (hne : u ≠ s) :
    ∃ ls, Remnant a.pending line later ls ∧
      ∀ m ∈ l :: s.joined l behind, m ∉ ls ∧ m ∉ u.joined line later := by
  have hsplit : (l :: s.joined l behind) ++ t.pending <:+ a.pending := by
    rw [List.cons_append, ← hleft]
    exact hlines
  have hlater := (u.joined_front line later).subset
  obtain ⟨ls, hls, -⟩ := remnant_of_reads hu hup
  rcases reads_total hr hu with ⟨_, hsu⟩ | ⟨_, hus⟩
  · -- Behind the dispatch, only the lines that it left are to be had.
    cases hsu with
    | refl => exact absurd rfl hne
    | next hp' hs' htu =>
      rw [hp] at hp'
      obtain ⟨rfl, rfl⟩ := List.cons.inj hp'
      rw [hs] at hs'
      cases hs'
      obtain ⟨ms, hms, -⟩ := remnant_of_reads htu hup
      refine ⟨ms, ⟨hms.suffix.trans ((List.suffix_append ..).trans hsplit), hms.number, hms.text⟩,
        fun m hm => ?_⟩
      have hnot := not_mem_of_suffix hl hsplit hm
      have hsub := hms.suffix.subset
      exact ⟨fun h => hnot (hsub (List.mem_append_left _ h)),
        fun h => hnot (hsub (List.mem_append_right _ (hlater h)))⟩
  · -- Before it, the line was still to come, and what the fragment joins ends before the line.
    obtain ⟨before, hbefore⟩ := suffix_of_reads_before hlines hj hu hup hus hp hne
    have hin : ∀ m ∈ l :: s.joined l behind, m ∈ l :: behind := fun m hm => by
      rw [hleft, ← List.cons_append]
      exact List.mem_append_left _ hm
    have hsuf : before ++ l :: behind <:+ a.pending := by
      rw [hbefore]
      exact (List.suffix_append ..).trans hls.suffix
    have hpre : u.joined line later <+: before ++ l :: behind := by
      rw [hbefore]
      exact u.joined_front line later
    have hpre := prefix_of_not_mem hpre fun hm => hj ⟨_, u, line, later, hu, hup, hm⟩
    refine ⟨ls, hls, fun m hm => ⟨fun h => ?_, fun h => ?_⟩⟩
    · refine not_mem_of_suffix hl hls.suffix h ?_
      rw [← hbefore]
      exact List.mem_append_right _ (hin m hm)
    · exact not_mem_of_suffix hl hsuf (hpre.subset h) (hin m hm)

/-! ## Number signs -/

/-- The lines that a line is continued onto end in a backslash, but for the last. -/
theorem endsOpen_of_continuation {l : SourceLine} {later left : List SourceLine}
    (h : later = continuation (endsOpen l.text) later ++ left) :
    (∀ m ∈ (l :: continuation (endsOpen l.text) later).dropLast, endsOpen m.text = true) ∧
      ∀ m ∈ (l :: continuation (endsOpen l.text) later).getLast?,
        endsOpen m.text = true → left = [] := by
  induction later generalizing l with
  | nil =>
    cases ho : endsOpen l.text <;> simp_all [continuation]
  | cons x later ih =>
    cases ho : endsOpen l.text with
    | false =>
      rw [continuation_false]
      refine ⟨fun m hm => absurd hm List.not_mem_nil, fun m hm hopen => ?_⟩
      obtain rfl : l = m := Option.some.inj hm
      rw [ho] at hopen
      cases hopen
    | true =>
      rw [ho] at h
      obtain ⟨h1, h2⟩ := ih (List.cons.inj h).2
      refine ⟨fun m hm => ?_, h2⟩
      rcases List.mem_cons.mp hm with rfl | hm
      · exact ho
      · exact h1 m hm

/-- A line that begins with `#` is matched whole, by the rule for macros or by the one for
directives. -/
theorem found?_hash (s : State) {line : SourceLine} (h : line.text.head? = some '#') :
    (∃ name value, Rule.define? line.text = some (.define name value, []) ∧
      s.found? line = some (.define, .define name value, [])) ∨
    ((∀ name, ¬ DefinesName line.text name) ∧
      s.found? line = some (.directive, .directive, [])) := by
  obtain ⟨r, hr⟩ := List.head?_eq_some_iff.mp h
  cases hd : Rule.define? line.text with
  | some p =>
    obtain ⟨k, rest⟩ := p
    obtain ⟨name, value, rfl⟩ := Rule.exists_of_define? hd
    obtain rfl := Rule.eq_nil_of_define? hd
    exact .inl ⟨name, value, rfl, matchIn?_of_define? s.scopes hd⟩
  | none =>
    refine .inr ⟨fun name hn => ?_, matchIn?_of_directive s.scopes hd (by simp [hr, afterMark?])⟩
    obtain ⟨value, hv⟩ := define?_of_definesName hn
    rw [hd] at hv
    cases hv

/-- The dispatch of a line that begins with `#` takes it whole, with the lines that a macro goes on
in, and reports the macro. -/
theorem step_hash (s : State) (behind : List SourceLine) (h : l.text.head? = some '#') :
    ∃ rule k es t, s.found? l = some (rule, k, []) ∧ (rule = .define ∨ rule = .directive) ∧
      s.step l behind = (es, .ok t) ∧ behind = s.joined l behind ++ t.pending ∧
      (∀ name, DefinesName l.text name →
        ∃ value, calls es = [(.define ⟨name, value⟩, s.scopes)]) ∧
      ((∀ name, ¬ DefinesName l.text name) → s.joined l behind = [] ∧ calls es = []) := by
  have hstep : ∀ {rule k}, s.found? l = some (rule, k, []) → k ≠ .closeBrace →
      ∃ es t, s.step l behind = (es, .ok t) ∧ t.pending = leftLines l behind [] k := by
    intro rule k hf hk
    rcases hs : s.step l behind with ⟨es, e | t⟩
    · obtain ⟨rule', rest', hm, -⟩ := piece_error hs
      rw [hf] at hm
      cases hm
      exact absurd rfl hk
    · exact ⟨es, t, rfl, pending_step hs hf⟩
  rcases found?_hash s h with ⟨name, value, hd, hf⟩ | ⟨hno, hf⟩
  · obtain ⟨es, t, hs, ht⟩ := hstep hf (by simp)
    have hcalls := calls_step hs hf (by simp)
    refine ⟨_, _, es, t, hf, .inl rfl, hs, ?_, fun name' hn => ?_, fun hno => ?_⟩
    · have hsuf := suffix_joinLines value behind
      have htake := List.take_append_drop (behind.length - (joinLines value behind).2.length) behind
      rw [← List.suffix_iff_eq_drop.mp hsuf] at htake
      rw [ht, joined, hf]
      exact htake.symm
    · obtain ⟨value', hd'⟩ := define?_of_definesName hn
      rw [hd] at hd'
      cases hd'
      exact ⟨_, hcalls⟩
    · exact absurd (define?_iff.mp ⟨value, [], hd⟩) (hno name)
  · obtain ⟨es, t, hs, ht⟩ := hstep hf (by simp)
    have hjoined : s.joined l behind = [] := by rw [joined, hf]
    refine ⟨_, _, es, t, hf, .inr rfl, hs, ?_, fun name hn => absurd hn (hno name), fun _ => ?_⟩
    · rw [hjoined, ht]
      rfl
    · exact ⟨hjoined, calls_step hs hf (by simp)⟩

/-- A macro that is dispatched as it stands takes lines that backslashes continue it onto. -/
theorem opened_of_definesName {name : String} (h : DefinesName l.text name)
    (hline : ∀ c ∈ l.text.getLast?, isBlank c = false) (hlater : ∀ m ∈ behind, m.text ≠ [])
    {left : List SourceLine} (hleft : behind = s.joined l behind ++ left) :
    (∀ m ∈ (l :: s.joined l behind).dropLast, endsOpen m.text = true) ∧
      ∀ m ∈ (l :: s.joined l behind).getLast?, endsOpen m.text = true → left = [] := by
  obtain ⟨value, hd⟩ := define?_of_definesName h
  have hf : s.found? l = some (.define, .define name value, []) := matchIn?_of_define? s.scopes hd
  obtain ⟨-, hjoined, -⟩ := joined_of_define hf hline hlater
  rw [hjoined] at hleft ⊢
  exact endsOpen_of_continuation hleft

end State

/-! ## Whole headers -/

open State

/-- In the state `s` of the reading of a header, the line `l` is dispatched on its own. -/
structure StandsAlone (source : String) (l : SourceLine) (s : State)
    (joined left : List SourceLine) : Prop where
  reachable : Reachable source s
  pending : s.pending = l :: (joined ++ left)
  /-- One of the two rules for `#` matches the whole line. -/
  matched : ∃ rule k, s.found? l = some (rule, k, []) ∧ (rule = .define ∨ rule = .directive)
  /-- The lines `joined` are taken along, by a macro only. A macro is reported under its name, and
  nothing else is. -/
  taken : ∃ es t before after, s.step l (joined ++ left) = (es, .ok t) ∧ t.pending = left ∧
    (parse source).calls = before ++ calls es ++ after ∧
    (∀ name, DefinesName l.text name → ∃ value, calls es = [(.define ⟨name, value⟩, s.scopes)]) ∧
    ((∀ name, ¬ DefinesName l.text name) → joined = [] ∧ calls es = [])
  /-- A macro goes on behind each line that ends in a backslash. -/
  opened : ∀ m ∈ (l :: joined).dropLast, endsOpen m.text = true
  /-- It does not leave the line directly behind one that ends in a backslash. -/
  closed : ∀ name, DefinesName l.text name → ∀ m ∈ (l :: joined).getLast?,
    endsOpen m.text = true → ∀ x ∈ left.head?, x.number ≠ m.number + 1
  /-- Whatever else is dispatched, or joined to it, is made of other lines. -/
  others : ∀ u line later, Reachable source u → u.pending = line :: later → u ≠ s →
    ∃ ls, Remnant (SourceLine.ofSource source.toList) line later ls ∧
      ∀ m ∈ l :: joined, m ∉ ls ∧ m ∉ u.joined line later

/-- A line that is joined to no other comes to the front as it stands, unless the parse fails in a
line before it. -/
theorem exists_reachable_line {source : String} {l : SourceLine} {behind : List SourceLine}
    (hl : l :: behind <:+ SourceLine.ofSource source.toList)
    (hj : ¬ JoinedFrom (startOf source) l)
    (he : ∀ e, (parse source).result = .error e → l.number ≤ e.line) :
    ∃ fs s, Reads (startOf source) fs s ∧ s.pending = l :: behind := by
  obtain ⟨es, t, hr, ht⟩ := exists_reads (startOf source)
  refine (exists_reads_before hr hl hj).resolve_right ?_
  rintro ⟨line, later, hp, hlater⟩
  rcases ht with ht | ⟨line', later', fs, e, hp', hs⟩
  · rw [hp] at ht
    cases ht
  · rw [hp] at hp'
    obtain ⟨rfl, rfl⟩ := List.cons.inj hp'
    obtain ⟨-, herr, -⟩ := parse_of_run (run_of_reads_error hr hp hs)
    have hle := he e (herr e rfl)
    rw [(step_error hs).2.1] at hle
    obtain ⟨ls, hls, -⟩ := remnant_of_reads hr hp
    -- The step that fails has the number of a line in front of this one.
    obtain ⟨g, hg, hn⟩ := Option.map_eq_some_iff.mp hls.number
    have hpw : (ls ++ later).Pairwise (·.number < ·.number) :=
      (SourceLine.pairwise_ofLines ..).sublist hls.suffix.sublist
    have hlt := (List.pairwise_append.mp hpw).2.2 g (List.mem_of_head? hg) l
      (hlater.subset List.mem_cons_self)
    have hle : l.number ≤ line.number := hle
    omega

/-- A line that begins with `#`, that no fragment, enum or macro before it takes along, and that the
parse comes to, is dispatched on its own wherever it stands: one of the two rules for such lines
takes all of it, with the lines that a macro goes on in, a macro is reported once, and no other
fragment holds any of that text. -/
theorem directive_alone {source : String} {l : SourceLine}
    (hl : l ∈ SourceLine.ofSource source.toList) (hm : l.text.head? = some '#')
    (hj : l ∉ (startOf source).joinedLines)
    (he : ∀ e, (parse source).result = .error e → l.number ≤ e.line) :
    ∃ s joined left, StandsAlone source l s joined left := by
  obtain ⟨before, behind, hsplit⟩ := List.append_of_mem hl
  have hsuffix : l :: behind <:+ SourceLine.ofSource source.toList := ⟨before, hsplit.symm⟩
  have hj : ¬ JoinedFrom (startOf source) l := fun h => hj (mem_joinedLines h)
  have htrim : ∀ m ∈ l :: behind, m.IsTrimmed := fun m hm =>
    SourceLine.isTrimmed_ofSource (hsuffix.subset hm)
  have hline := (htrim l List.mem_cons_self).last
  have hlater : ∀ m ∈ behind, m.text ≠ [] := fun m hm =>
    (htrim m (List.mem_cons_of_mem _ hm)).ne_nil
  obtain ⟨fs, s, hr, hp⟩ := exists_reachable_line hsuffix hj he
  obtain ⟨rule, k, es, t, hf, hrule, hs, hleft, hmacro, hnone⟩ := step_hash s behind hm
  refine ⟨s, s.joined l behind, t.pending, ?_⟩
  constructor
  case reachable => exact ⟨fs, hr⟩
  case pending => rw [← hleft, hp]
  case matched => exact ⟨rule, k, hf, hrule⟩
  case taken =>
    have hcalls := calls_of_run (run_of_reads_run (hr.trans (.one hp hs)))
    rw [calls_append, calls_append] at hcalls
    rw [← hleft]
    exact ⟨es, t, _, _, hs, rfl, hcalls, hmacro, hnone⟩
  case opened =>
    by_cases hd : ∃ name, DefinesName l.text name
    · obtain ⟨name, hd⟩ := hd
      exact (opened_of_definesName hd hline hlater hleft).1
    · rw [(hnone fun name hn => hd ⟨name, hn⟩).1]
      exact fun m hm => absurd hm List.not_mem_nil
  case closed =>
    intro name hd m hm hopen x hx
    rw [(opened_of_definesName hd hline hlater hleft).2 m hm hopen] at hx
    cases hx
  case others =>
    rintro u line later ⟨gs, hu⟩ hup hne
    exact fragments_apart (SourceLine.pairwise_ofLines ..) hsuffix hj hr hp hs hleft hu hup hne

/-- A class with a macro of two lines, and a directive in the body of a method. -/
def scatteredMarks : String :=
  "class C \x7b\n#define A 1 + \\\n 2\nvoid f() \x7b\n#if A\n\x7d\n\x7d;\n"

theorem directive_alone_scatteredMarks :
    (parse scatteredMarks).result = .ok ⟨⟨7, 3, 0⟩, ⟨8, 3, 0, 0⟩, 7⟩ ∧
      ∃ s joined left, StandsAlone scatteredMarks ⟨2, "#define A 1 + \\".toList⟩ s joined left := by
  have hr : (parse scatteredMarks).result = .ok ⟨⟨7, 3, 0⟩, ⟨8, 3, 0, 0⟩, 7⟩ := by decide +kernel
  refine ⟨hr, directive_alone ?_ ?_ ?_ fun e he => ?_⟩
  · decide +kernel
  · decide +kernel
  · decide +kernel
  · rw [hr] at he
    cases he

/-- An enum with a macro between its members. -/
def enclosedMacro : String :=
  "enum E \x7b A,\n#define B 1\nC \x7d;\n"

/-- A line that defines a macro, with no backslash before it, is not read as one inside an enum. -/
theorem enclosedMacro_unreported :
    ⟨2, "#define B 1".toList⟩ ∈ SourceLine.ofSource enclosedMacro.toList ∧
      DefinesName "#define B 1".toList "B" ∧
      (∀ m ∈ SourceLine.ofSource enclosedMacro.toList, endsOpen m.text = false) ∧
      (parse enclosedMacro).result = .ok ⟨⟨3, 0, 0⟩, ⟨1, 0, 2, 0⟩, 3⟩ ∧
      (parse enclosedMacro).calls = [] := by
  refine ⟨by decide +kernel, define?_iff.mp ⟨['1'], [], by decide +kernel⟩, by decide +kernel,
    by decide +kernel, by decide +kernel⟩

end HeaderOutline
