import HeaderOutline.Proofs.Fragments
/-!
# Macros in several lines

The value of a macro goes on in the next line as long as it ends in a backslash, that is, as long as
the line before does. The next line is the next one that is pending, and a line that is blank, or
holds only a comment, never comes to be pending. So where a blank line follows the backslash, the
macro takes whatever comes behind the blank lines.

`ContinuesOnto` says which lines a macro should take: physical lines in a row, up to the first that
does not end in a backslash. `BlankFollows` is the one case in which it takes others.

Results:
* `joined_of_define`: the lines that a macro takes, in terms of the pending lines.
* `continuesOnto_iff`: they are the physical ones, unless a blank line follows a backslash.
* `define_continues`: the same for every macro of a header.
-/
namespace HeaderOutline
open Text

/-! ## Pending lines -/

/-- A macro whose text this is goes on in the next line. -/
def endsOpen (cs : List Char) : Bool :=
  cs.getLast? == some '\\'

/-- The lines that a text is continued onto; `goesOn` tells whether the text ends in a backslash. -/
def continuation : Bool → List SourceLine → List SourceLine
  | true, l :: ls => l :: continuation (endsOpen l.text) ls
  | _, _ => []

theorem continuation_false (ls : List SourceLine) : continuation false ls = [] := by
  cases ls <;> rfl

/-- A value with further lines, each in the place of a backslash. -/
def spliced (value : List Char) (ls : List SourceLine) : List Char :=
  ls.foldl (fun v l => v.dropLast ++ l.text) value

theorem continuation_front (goesOn : Bool) (ls : List SourceLine) :
    continuation goesOn ls <+: ls := by
  induction ls generalizing goesOn with
  | nil => cases goesOn <;> exact List.nil_prefix
  | cons l ls ih =>
    cases goesOn with
    | false => exact List.nil_prefix
    | true => exact (List.prefix_cons_inj l).mpr (ih _)

theorem endsOpen_append {cs : List Char} (h : cs ≠ []) (as : List Char) :
    endsOpen (as ++ cs) = endsOpen cs := by
  rw [endsOpen, List.getLast?_append_of_ne_nil _ h, endsOpen]

/-- A macro takes the lines that it is continued onto. -/
theorem joinLines_eq (value : List Char) {later : List SourceLine}
    (h : ∀ l ∈ later, l.text ≠ []) :
    State.joinLines value later = (spliced value (continuation (endsOpen value) later),
      later.drop (continuation (endsOpen value) later).length) := by
  fun_induction State.joinLines value later with
  | case1 value => cases he : endsOpen value <;> rfl
  | case2 value l ls hopen ih =>
    have he : endsOpen value = true := by simpa [endsOpen] using hopen
    rw [ih fun m hm => h m (List.mem_cons_of_mem _ hm), he,
      endsOpen_append (h l List.mem_cons_self)]
    rfl
  | case3 value l ls hopen =>
    have he : endsOpen value = false := by simpa [endsOpen] using hopen
    rw [he]
    rfl

/-! ## The end of a text -/

theorem getLast?_trim {cs : List Char} (h : ∀ c ∈ cs.getLast?, isBlank c = false) :
    (trim cs).getLast? = cs.getLast? := by
  cases hl : cs.getLast? with
  | none => rw [List.getLast?_eq_none_iff.mp hl]; rfl
  | some c =>
    obtain ⟨r, rfl⟩ := List.getLast?_eq_some_iff.mp hl
    have hc := h c hl
    rw [trim, trimStart_append hc, trimEnd_append_of_last hc, List.getLast?_append]
    rfl

/-- The value of a macro ends in a backslash just when its text does. -/
theorem endsOpen_of_define? {cs rest value : List Char} {name : String}
    (h : Rule.define? cs = some (.define name value, rest))
    (hl : ∀ c ∈ cs.getLast?, isBlank c = false) : endsOpen value = endsOpen cs := by
  simp only [Rule.define?, Option.bind_eq_bind, Option.bind_eq_some_iff] at h
  obtain ⟨c1, h1, c2, h2, h⟩ := h
  split at h
  · cases h
  · split at h
    · cases h
    · next hname =>
      cases h
      have hsuf : trimStart c2 <:+ cs := (trimStart_suffix c2).trans
        ((suffix_of_after? h2).trans ((trimStart_suffix c1).trans (suffix_of_afterMark? h1)))
      obtain ⟨lead, hlead⟩ := hsuf
      have hsplit := List.takeWhile_append_dropWhile (p := isWordChar) (l := trimStart c2)
      rw [← hsplit] at hlead
      have hword := List.all_takeWhile (p := isWordChar) (l := trimStart c2)
      generalize (trimStart c2).takeWhile isWordChar = w at hname hlead hword
      generalize (trimStart c2).dropWhile isWordChar = r at hlead
      subst hlead
      cases hr : r with
      | nil =>
        -- Nothing follows the name, and its last character is no backslash.
        have hw : w ≠ [] := by simpa using hname
        rw [List.append_nil, endsOpen_append hw]
        refine (beq_eq_false_iff_ne.mpr ?_).symm
        intro hlast
        have hb := List.all_eq_true.mp hword '\\' (List.mem_of_getLast? hlast)
        exact absurd hb (by decide)
      | cons c r' =>
        rw [← hr]
        have hne : r ≠ [] := by rw [hr]; simp
        have hlast : (lead ++ (w ++ r)).getLast? = r.getLast? := by
          rw [← List.append_assoc, List.getLast?_append_of_ne_nil _ hne]
        rw [hlast] at hl
        rw [endsOpen, getLast?_trim hl, endsOpen, hlast]

/-- A line of a header ends in a character that is not blank. -/
def SourceLine.IsTrimmed (l : SourceLine) : Prop :=
  ∃ r c, l.text = r ++ [c] ∧ isBlank c = false

theorem SourceLine.IsTrimmed.ne_nil {l : SourceLine} (h : l.IsTrimmed) : l.text ≠ [] := by
  obtain ⟨r, c, hl, -⟩ := h
  rw [hl]
  simp

theorem SourceLine.IsTrimmed.last {l : SourceLine} (h : l.IsTrimmed) :
    ∀ c ∈ l.text.getLast?, isBlank c = false := by
  obtain ⟨r, c, hl, hc⟩ := h
  rw [hl, List.getLast?_concat]
  exact fun d hd => Option.some.inj hd ▸ hc

theorem SourceLine.isTrimmed_ofLines {m : Mode} {n : Nat} {ls : List (List Char)} {l : SourceLine}
    (h : l ∈ ofLines m n ls) : l.IsTrimmed := by
  induction ls generalizing m n with
  | nil => cases h
  | cons k ls ih =>
    simp only [ofLines] at h
    split at h
    · exact ih h
    · next hne =>
      rcases List.mem_cons.mp h with rfl | h
      · exact trimEnd_last (fun h0 => hne (List.isEmpty_iff.mpr h0))
      · exact ih h

theorem SourceLine.isTrimmed_ofSource {source : List Char} {l : SourceLine}
    (h : l ∈ ofSource source) : l.IsTrimmed :=
  isTrimmed_ofLines h

/-- A fragment ends as the last of its lines does. -/
theorem Remnant.getLast?_text {lines later above : List SourceLine} {line l : SourceLine}
    (h : Remnant lines line later (above ++ [l])) (hl : l.text ≠ []) (hne : line.text ≠ []) :
    line.text.getLast? = l.text.getLast? := by
  have hjoined : (joinedText (above ++ [l])).getLast? = l.text.getLast? := by
    by_cases ha : above = []
    · rw [ha]
      rfl
    · rw [joinedText_append ha]
      show (joinedText above ++ ([' '] ++ l.text)).getLast? = _
      rw [← List.append_assoc, List.getLast?_append_of_ne_nil _ hl]
  obtain ⟨lead, hlead⟩ := h.text
  rw [← hjoined, ← hlead, List.getLast?_append_of_ne_nil _ hne]

open State in
/-- The macro that a text defines takes the lines that the text is continued onto. -/
theorem joined_of_define {s : State} {line : SourceLine} {later : List SourceLine} {rule : Rule}
    {name : String} {value rest : List Char}
    (hf : s.found? line = some (rule, .define name value, rest))
    (hline : ∀ c ∈ line.text.getLast?, isBlank c = false) (hlater : ∀ l ∈ later, l.text ≠ []) :
    Rule.define? line.text = some (.define name value, []) ∧
      s.joined line later = continuation (endsOpen line.text) later ∧
      joinLines value later = (spliced value (s.joined line later),
        later.drop (s.joined line later).length) := by
  obtain ⟨-, hr⟩ := Rule.recognize?_of_match? hf
  obtain rfl := Rule.eq_nil_of_define hr
  cases Rule.makes_of_recognize? hr
  have hd : Rule.define? line.text = some (.define name value, []) := hr
  have hj := joinLines_eq value hlater
  have hopen := endsOpen_of_define? hd hline
  have hle := (continuation_front (endsOpen value) later).length_le
  have htake := List.prefix_iff_eq_take.mp (continuation_front (endsOpen value) later)
  have hjoined : s.joined line later = continuation (endsOpen value) later := by
    rw [State.joined, hf]
    simp only [hj, List.length_drop]
    rw [Nat.sub_sub_self hle, ← htake]
  rw [hjoined]
  exact ⟨hd, by rw [hopen], hj⟩

/-! ## Physical lines -/

namespace SourceLine

/-- The texts of physical lines that begin in mode `m`, without their comments and trimmed. -/
def textsFrom (m : Mode) : List (List Char) → List (List Char)
  | [] => []
  | l :: ls => trim (strip m l).1 :: textsFrom (strip m l).2.nextLine ls

def physicalTexts (source : List Char) : List (List Char) :=
  textsFrom .code (lines source)

/-- The texts that are not empty, with their numbers from `n` on. -/
def numbered (n : Nat) : List (List Char) → List SourceLine
  | [] => []
  | t :: ts => if t.isEmpty then numbered (n + 1) ts else ⟨n, t⟩ :: numbered (n + 1) ts

theorem ofLines_eq_numbered (m : Mode) (n : Nat) (ls : List (List Char)) :
    ofLines m n ls = numbered n (textsFrom m ls) := by
  induction ls generalizing m n with
  | nil => rfl
  | cons l ls ih => simp only [ofLines, textsFrom, numbered, ih]

theorem numbered_eq_append {n : Nat} {ts : List (List Char)} {before later : List SourceLine}
    {l : SourceLine} (h : numbered n ts = before ++ l :: later) :
    n ≤ l.number ∧ ∃ rs, ts.drop (l.number - n) = l.text :: rs ∧
      later = numbered (l.number + 1) rs := by
  induction ts generalizing n before with
  | nil => simp [numbered] at h
  | cons t ts ih =>
    have hlater : ∀ {before}, numbered (n + 1) ts = before ++ l :: later →
        n ≤ l.number ∧ ∃ rs, (t :: ts).drop (l.number - n) = l.text :: rs ∧
          later = numbered (l.number + 1) rs := fun h => by
      obtain ⟨hn, rs, hrs⟩ := ih h
      refine ⟨by omega, rs, ?_⟩
      rwa [show l.number - n = (l.number - (n + 1)) + 1 by omega, List.drop_succ_cons]
    rw [numbered] at h
    split at h
    · exact hlater h
    · cases before with
      | nil =>
        obtain ⟨rfl, rfl⟩ := List.cons.inj h
        exact ⟨Nat.le_refl _, ts, by simp, rfl⟩
      | cons b before => exact hlater (List.cons.inj h).2

end SourceLine

/-- The physical line `n` is the first of the texts. The lines `js` are those that follow it, one
after the other, up to the first that does not end in a backslash, or to the last one. -/
inductive ContinuesOnto : Nat → List (List Char) → List SourceLine → Prop
  | stop {n : Nat} {t : List Char} {ts : List (List Char)} : endsOpen t = false →
      ContinuesOnto n (t :: ts) []
  | last (n : Nat) (t : List Char) : ContinuesOnto n [t] []
  | next {n : Nat} {t r : List Char} {ts : List (List Char)} {js : List SourceLine} :
      endsOpen t = true → ContinuesOnto (n + 1) (r :: ts) js →
        ContinuesOnto n (t :: r :: ts) (⟨n + 1, r⟩ :: js)

/-- Lines that end in a backslash come first, and then a blank one. -/
inductive BlankFollows : List (List Char) → Prop
  | here {t : List Char} (ts : List (List Char)) : endsOpen t = true → BlankFollows (t :: [] :: ts)
  | later {t : List Char} {ts : List (List Char)} : endsOpen t = true → BlankFollows ts →
      BlankFollows (t :: ts)

/-- The lines that a text is continued onto are the physical ones behind it, unless a blank line
follows a backslash. -/
theorem continuesOnto_iff (n : Nat) (t : List Char) (ts : List (List Char)) :
    ContinuesOnto n (t :: ts) (continuation (endsOpen t) (SourceLine.numbered (n + 1) ts)) ↔
      ¬ BlankFollows (t :: ts) := by
  induction ts generalizing n t with
  | nil =>
    have hnil : continuation (endsOpen t) (SourceLine.numbered (n + 1) []) = [] := by
      cases endsOpen t <;> rfl
    rw [hnil]
    refine iff_of_true (.last n t) fun hb => ?_
    cases hb with
    | later _ hb => cases hb
  | cons r rs ih =>
    cases ht : endsOpen t with
    | false =>
      rw [continuation_false]
      refine iff_of_true (.stop ht) fun hb => ?_
      cases hb with
      | here _ hopen | later hopen _ => rw [ht] at hopen; cases hopen
    | true =>
      cases r with
      | nil =>
        -- The blank line is passed over, and the lines begin behind it.
        refine iff_of_false (fun hc => ?_) fun hb => hb (.here rs ht)
        have hskip : SourceLine.numbered (n + 1) ([] :: rs) = SourceLine.numbered (n + 2) rs := rfl
        rw [hskip] at hc
        cases hrs : SourceLine.numbered (n + 2) rs with
        | nil =>
          rw [hrs] at hc
          cases hc with
          | stop hopen => rw [ht] at hopen; cases hopen
        | cons l ls =>
          have hn := (SourceLine.numbered_eq_append (hrs.trans (List.nil_append _).symm)).1
          rw [hrs] at hc
          cases hc with
          | next _ _ => exact absurd hn (by simp)
      | cons c r =>
        have hstep : continuation true (SourceLine.numbered (n + 1) ((c :: r) :: rs)) =
            ⟨n + 1, c :: r⟩ :: continuation (endsOpen (c :: r))
              (SourceLine.numbered (n + 1 + 1) rs) := rfl
        rw [hstep]
        constructor
        · intro hc hb
          cases hc with
          | next _ hc =>
            cases hb with
            | later _ hb => exact (ih _ _).mp hc hb
        · exact fun hb => .next ht ((ih _ _).mpr fun hb' => hb (.later ht hb'))

/-! ## Whole headers -/

theorem SourceLine.drop_physicalTexts {source : List Char} {before later : List SourceLine}
    {l : SourceLine} (h : ofSource source = before ++ l :: later) :
    ∃ rs, (physicalTexts source).drop (l.number - 1) = l.text :: rs ∧
      later = numbered (l.number + 1) rs := by
  rw [ofSource, ofLines_eq_numbered] at h
  exact (numbered_eq_append h).2

theorem Remnant.exists_last {lines later ls : List SourceLine} {line : SourceLine}
    (h : Remnant lines line later ls) : ∃ above l, ls = above ++ [l] := by
  refine (List.eq_nil_or_concat' ls).resolve_left ?_
  rintro rfl
  cases h.number

theorem Construct.eq_define_of_event? {k : Construct} {later : List SourceLine} {item : MacroDef}
    (h : k.event? later = some (.define item)) :
    ∃ name value, k = .define name value ∧
      item = ⟨name, String.ofList (State.joinLines value later).1⟩ := by
  cases k with
  | define name value =>
    cases h
    exact ⟨name, value, rfl, rfl⟩
  | function _ terminated | constructor _ terminated | destructor _ terminated =>
    cases terminated <;> cases h
  | _ => cases h

/-- In the state `s` the fragment `line` is dispatched and the macro `item` reported, which takes
the lines `joined` along. The lines `left` stay pending. -/
structure MacroRead (source : String) (c : Callback) (item : MacroDef) (s : State)
    (line : SourceLine) (joined left : List SourceLine) : Prop where
  reachable : Reachable source s
  pending : s.pending = line :: (joined ++ left)
  reported : ∃ es t, s.step line (joined ++ left) = (es, .ok t) ∧ c ∈ callbacksOf es ∧
    t.pending = left
  number : line.number = c.line
  value : ∃ value, Rule.define? line.text = some (.define item.name value, []) ∧
    item.value = String.ofList (spliced value joined)

open State in
/-- The lines that a macro takes behind the line that it stands in are the physical lines that
follow, up to the first that does not end in a backslash, unless a blank line follows a backslash.
In that case, and only in that one, they are not. The line that it stands in is the last one of
those that its fragment is made of. -/
theorem define_continues {source : String} {c : Callback} {item : MacroDef}
    (hc : c ∈ (parse source).callbacks) (he : c.event = .define item) :
    ∃ s line joined left above l, MacroRead source c item s line joined left ∧
      Remnant (SourceLine.ofSource source.toList) line (joined ++ left) (above ++ [l]) ∧
      (ContinuesOnto l.number
          ((SourceLine.physicalTexts source.toList).drop (l.number - 1)) joined ↔
        ¬ BlankFollows ((SourceLine.physicalTexts source.toList).drop (l.number - 1))) := by
  obtain ⟨s, line, later, es, t, ⟨fs, hr⟩, hp, hs, hmem⟩ :=
    exists_step_of_mem_callbacks hc (by rw [he]; rfl)
  obtain ⟨hn, rule, k, rest, hf, hk⟩ := found?_of_mem_step hs hmem (by rw [he]; rfl)
  obtain ⟨name, value, rfl, rfl⟩ : ∃ name value, k = .define name value ∧
      item = ⟨name, String.ofList (joinLines value later).1⟩ := by
    rw [he] at hk
    rcases hk with hk | ⟨d, hk⟩ | hk
    · exact Construct.eq_define_of_event? hk
    · cases hk
    · cases hk
  obtain ⟨ls, hls, -⟩ := remnant_of_reads hr hp
  obtain ⟨above, l, rfl⟩ := hls.exists_last
  obtain ⟨before, hbefore⟩ := hls.suffix
  have hsource : SourceLine.ofSource source.toList = before ++ above ++ l :: later := by
    rw [show SourceLine.ofSource source.toList = _ from hbefore.symm]
    simp
  have htrim : ∀ m ∈ l :: later, m.IsTrimmed := fun m hm =>
    SourceLine.isTrimmed_ofSource (hsource ▸ List.mem_append_right _ hm)
  have hl := htrim l List.mem_cons_self
  have hne : line.text ≠ [] := fun hnil => by
    obtain ⟨-, hrec⟩ := Rule.recognize?_of_match? hf
    cases Rule.makes_of_recognize? hrec
    rw [hnil] at hrec
    cases hrec
  have hlast := hls.getLast?_text hl.ne_nil hne
  obtain ⟨hd, hjoined, hvalue⟩ := joined_of_define hf (by rw [hlast]; exact hl.last)
    fun m hm => (htrim m (List.mem_cons_of_mem _ hm)).ne_nil
  obtain rfl : rest = [] := Rule.eq_nil_of_define (Rule.recognize?_of_match? hf).2
  have hleft : t.pending = later.drop (s.joined line later).length := by
    rw [pending_step hs hf]
    exact congrArg Prod.snd hvalue
  have hlater : s.joined line later ++ later.drop (s.joined line later).length = later :=
    List.prefix_iff_eq_append.mp (s.joined_front line later)
  refine ⟨s, line, s.joined line later, later.drop (s.joined line later).length, above, l, ?_, ?_,
    ?_⟩
  · constructor
    case reachable => exact ⟨fs, hr⟩
    case pending => rw [hlater, hp]
    case reported => exact ⟨es, t, by rw [hlater, hs], hmem, hleft⟩
    case number => exact hn.symm
    case value => exact ⟨value, hd, congrArg (fun p => String.ofList p.1) hvalue⟩
  · rw [hlater]
    exact hls
  · -- The pending lines are the physical ones behind the line, but for the blank ones.
    obtain ⟨rs, hrs, hrest⟩ := SourceLine.drop_physicalTexts hsource
    have hopen : endsOpen line.text = endsOpen l.text := by rw [endsOpen, hlast, endsOpen]
    rw [hrs, hjoined, hopen, hrest]
    exact continuesOnto_iff l.number l.text rs

/-- A macro with a backslash at its end, a blank line, and a function. -/
def swallowing : String :=
  "#define A 1 \\\n\nint f();\n"

def swallowed : Callback :=
  ⟨.define ⟨"A", "1 int f();"⟩, 1, []⟩

theorem define_continues_swallowed :
    swallowed ∈ (parse swallowing).callbacks ∧
      BlankFollows (SourceLine.physicalTexts swallowing.toList) ∧
      ∃ s line joined left above l,
        MacroRead swallowing swallowed ⟨"A", "1 int f();"⟩ s line joined left ∧
        Remnant (SourceLine.ofSource swallowing.toList) line (joined ++ left) (above ++ [l]) ∧
        (ContinuesOnto l.number
            ((SourceLine.physicalTexts swallowing.toList).drop (l.number - 1)) joined ↔
          ¬ BlankFollows ((SourceLine.physicalTexts swallowing.toList).drop (l.number - 1))) := by
  have hc : swallowed ∈ (parse swallowing).callbacks := by decide +kernel
  have ht : SourceLine.physicalTexts swallowing.toList =
      ["#define A 1 \\".toList, [], "int f();".toList] := by decide +kernel
  exact ⟨hc, ht ▸ .here _ (by decide +kernel), define_continues hc rfl⟩

end HeaderOutline
