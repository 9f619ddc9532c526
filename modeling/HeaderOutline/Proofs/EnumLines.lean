import HeaderOutline.Proofs.EnumGathering
import HeaderOutline.Proofs.SqueezedText
import HeaderOutline.Proofs.SteadyDeclarations
import HeaderOutline.Proofs.StrippedLines
/-!
# Enums on several lines

The words of an enum may be laid out on any lines. The lines are joined again with spaces, which
gives a text with the same words, so the same enum is read of it. Of its beginnings none holds an
enum or ends a statement: the only semicolon outside the braces of the body is the last character.

Results:
* `words_withLines`, `words_textLines`: the words of a text are those of its lines.
* `afterSemicolon?_tokens`: without quotes, statements end where the characters say so.
* `reads_enumLines`: an enum is read and reported alike, however its words are laid out on lines.
-/
namespace HeaderOutline
open Text Declaration

/-! ## The words of lines -/

theorem words_trim (cs : List Char) : words (trim cs) = words cs := by
  have hstart : ∀ ds, words (trimStart ds) = words ds := fun ds => by
    induction ds with
    | nil => rfl
    | cons c r ih =>
      cases hc : isBlank c with
      | true => rw [trimStart_blank hc, ih, words, if_pos hc]
      | false => rw [trimStart_cons hc]
  obtain ⟨bs, hb, he⟩ := exists_trimEnd (trimStart cs)
  have hend : words (trimEnd (trimStart cs) ++ bs) = words (trimEnd (trimStart cs)) := by
    by_cases hne : bs = []
    · rw [hne, List.append_nil]
    · have h := words_append_blanks hb hne (trimEnd (trimStart cs)) []
      rw [List.append_nil] at h
      rw [h, words, List.append_nil]
  rw [he, hstart] at hend
  exact hend.symm

/-- The words of a text are those of its lines. -/
theorem words_textLines (cs : List Char) : (textLines cs).flatMap words = words cs := by
  induction hn : cs.length using Nat.strongRecOn generalizing cs with
  | ind n ih =>
    have hline : (unlessEmpty (trim (lineHead cs))).flatMap words = words (lineHead cs) := by
      rw [unlessEmpty, ← words_trim (lineHead cs)]
      split
      · next h => rw [List.isEmpty_iff.mp h, words]; rfl
      · exact List.flatMap_singleton ..
    have hsplit := lineHead_append_lineRest cs
    rw [textLines_eq, List.flatMap_append, hline]
    rcases lineRest_cases cs with hr | ⟨r, hr⟩
    · rw [hr] at hsplit ⊢
      rw [List.append_nil] at hsplit
      rw [hsplit]
      exact List.append_nil _
    · have hlen : r.length < n := by
        rw [← hn, ← hsplit, hr, List.length_append, List.length_cons]
        omega
      rw [hr, textLines_newline, ih r.length hlen r rfl]
      conv => rhs; rw [← hsplit, hr, words_append_blank (by decide)]

theorem words_withLines (text : List Char) (ls : List SourceLine) :
    words (withLines text ls) = (text :: ls.map (·.text)).flatMap words := by
  induction ls generalizing text with
  | nil => exact (List.flatMap_singleton ..).symm
  | cons l ls ih =>
    rw [withLines_cons, words_append_blank isBlank_space, ih]
    rfl

theorem Solid.withLines {text : List Char} {ls : List SourceLine}
    (h : ∀ w ∈ text :: ls.map (·.text), Solid w) : Solid (HeaderOutline.withLines text ls) := by
  induction ls generalizing text with
  | nil => exact h text List.mem_cons_self
  | cons l ls ih =>
    rw [withLines_cons]
    obtain ⟨htext, hls⟩ := List.forall_mem_cons.mp h
    exact htext.join (ih hls)

/-- Whether a text holds quotes or comment markers can be told by its words. -/
theorem noComment_iff_words (cs : List Char) :
    noComment cs = true ↔ ∀ w ∈ words cs, noComment w = true := by
  fun_induction words cs with
  | case1 => exact ⟨fun _ _ h => absurd h List.not_mem_nil, fun _ => rfl⟩
  | case2 c r hc ih =>
    have hq := (isPlain_iff.mp (isPlain_of_isBlank hc)).2
    have hslash : c ≠ '/' := by rintro rfl; revert hc; decide
    rw [← ih, noComment, hq, beq_false_of_ne hslash]
    rfl
  | case3 c r hc ih =>
    have hsplit : (c :: r.takeWhile fun x => !isBlank x) ++ (r.dropWhile fun x => !isBlank x) =
        c :: r := by
      rw [List.cons_append, List.takeWhile_append_dropWhile]
    have hhead := List.head?_dropWhile_not (fun x => !isBlank x) r
    rw [List.forall_mem_cons, ← ih, ← hsplit]
    refine ⟨fun h => ⟨noComment_of_front h, noComment_of_suffix h⟩, fun h =>
      noComment_append h.1 h.2 fun d hd => ?_⟩
    rw [Option.mem_def.mp hd] at hhead
    constructor <;> (rintro rfl; revert hhead; decide)

theorem isQuote_of_noComment {cs : List Char} (h : noComment cs = true) :
    ∀ c ∈ cs, isQuote c = false := by
  induction cs with
  | nil => exact fun _ h => absurd h List.not_mem_nil
  | cons c r ih =>
    rw [noComment, Bool.and_eq_true, Bool.and_eq_true, Bool.not_eq_true'] at h
    exact List.forall_mem_cons.mpr ⟨h.1.1, ih h.2⟩

/-! ## Statements without quotes -/

/-- What follows the first semicolon outside `depth` open braces, told by the characters. -/
def afterSemicolonIn? (depth : Nat) : List Char → Option (List Char)
  | [] => none
  | c :: r =>
    if c = '\x7b' then afterSemicolonIn? (depth + 1) r
    else if c = '\x7d' then afterSemicolonIn? (depth - 1) r
    else if c = ';' ∧ depth = 0 then some r
    else afterSemicolonIn? depth r

theorem afterSemicolonIn?_append {n : Nat} {cs r : List Char} (h : afterSemicolonIn? n cs = some r)
    (ds : List Char) : afterSemicolonIn? n (cs ++ ds) = some (r ++ ds) := by
  fun_induction afterSemicolonIn? n cs with
  | case1 => cases h
  | case2 n r' ih => rw [List.cons_append, afterSemicolonIn?, if_pos rfl, ih h]
  | case3 n r' _ ih =>
    rw [List.cons_append, afterSemicolonIn?, if_neg (by decide), if_pos rfl, ih h]
  | case4 n c r' h1 h2 h3 =>
    cases h
    rw [List.cons_append, afterSemicolonIn?, if_neg h1, if_neg h2, if_pos h3]
  | case5 n c r' h1 h2 h3 ih =>
    rw [List.cons_append, afterSemicolonIn?, if_neg h1, if_neg h2, if_neg h3, ih h]

theorem afterSemicolonIn?_plain {w : List Char} (hw : ∀ c ∈ w, isDelimiterChar c = false) (n : Nat)
    (cs : List Char) : afterSemicolonIn? n (w ++ cs) = afterSemicolonIn? n cs := by
  induction w with
  | nil => rfl
  | cons c w ih =>
    obtain ⟨hc, hw⟩ := List.forall_mem_cons.mp hw
    simp only [isDelimiterChar, Bool.or_eq_false_iff, beq_eq_false_iff_ne] at hc
    rw [List.cons_append, afterSemicolonIn?, if_neg hc.1.1, if_neg hc.1.2,
      if_neg fun h => hc.2 h.1, ih hw]

theorem afterSemicolonIn?_body {w : List Char} (hw : ∀ c ∈ w, isBrace c = false) (n : Nat)
    (cs : List Char) : afterSemicolonIn? (n + 1) (w ++ cs) = afterSemicolonIn? (n + 1) cs := by
  induction w with
  | nil => rfl
  | cons c w ih =>
    obtain ⟨hc, hw⟩ := List.forall_mem_cons.mp hw
    simp only [isBrace, Bool.or_eq_false_iff, beq_eq_false_iff_ne] at hc
    rw [List.cons_append, afterSemicolonIn?, if_neg hc.1, if_neg hc.2,
      if_neg fun h => Nat.succ_ne_zero n h.2, ih hw]

/-- A token of a text without quotes is a delimiter or holds none. -/
theorem isDelimiterChar_next? {cs rest : List Char} {t : Token} (hq : ∀ c ∈ cs, isQuote c = false)
    (h : Token.next? cs = some (t, rest)) :
    (∃ d, isDelimiterChar d = true ∧ t.text = String.ofList [d]) ∨
      ∀ c ∈ t.text.toList, isDelimiterChar c = false := by
  have hname : ∀ c, isNameChar c = true → isDelimiterChar c = false := fun c hc => by
    refine Bool.eq_false_iff.mpr fun hd => ?_
    rcases isDelimiterChar_cases hd with rfl | rfl | rfl <;> revert hc <;> decide
  obtain ⟨c, r, hd, rfl, rfl⟩ := Token.exists_lexeme_of_next? h
  have hc : isQuote c = false := hq c
    ((List.dropWhile_suffix isSpace).subset (hd ▸ List.mem_cons_self))
  rw [String.toList_ofList]
  unfold Token.lexeme
  split
  · next hn =>
    refine .inr (List.forall_mem_cons.mpr ⟨hname c hn, fun d hd => hname d ?_⟩)
    exact List.all_eq_true.mp List.all_takeWhile d hd
  · rw [if_neg (by simp [hc])]
    split
    · exact .inr (show ∀ d ∈ [':', ':'], isDelimiterChar d = false by decide)
    · exact .inr (show ∀ d ∈ ['.', '.', '.'], isDelimiterChar d = false by decide)
    · cases hdc : isDelimiterChar c with
      | true => exact .inl ⟨c, hdc, rfl⟩
      | false => exact .inr (by simpa using hdc)

theorem isDelimiterChar_of_isSpace {c : Char} (h : isSpace c = true) :
    isDelimiterChar c = false := Bool.eq_false_iff.mpr fun hd => by
  rcases isDelimiterChar_cases hd with rfl | rfl | rfl <;> revert h <;> decide

/-- Without quotes, a statement ends where the characters say so. -/
theorem afterSemicolon?_tokens {cs : List Char} (hq : ∀ c ∈ cs, isQuote c = false) (n : Nat) :
    afterSemicolon? n (Token.tokens cs) = (afterSemicolonIn? n cs).map Token.tokens := by
  fun_induction Token.tokens cs generalizing n with
  | case1 cs hn =>
    have hspace : ∀ c ∈ cs, isDelimiterChar c = false := fun c hc =>
      isDelimiterChar_of_isSpace (Token.isSpace_of_next?_none hn c hc)
    have h := afterSemicolonIn?_plain hspace n []
    rw [List.append_nil] at h
    rw [h]
    rfl
  | case2 cs t rest hn ih =>
    have hspace : ∀ c ∈ cs.takeWhile isSpace, isDelimiterChar c = false := fun c hc =>
      isDelimiterChar_of_isSpace (List.all_eq_true.mp List.all_takeWhile c hc)
    have happ := Token.append_of_next? hn
    have ih' := ih fun c hc => hq c (by rw [← happ]; simp [hc])
    rw [← happ, afterSemicolonIn?_plain hspace]
    rcases isDelimiterChar_next? hq hn with ⟨d, hd, ht⟩ | ht
    · rw [afterSemicolon?, ht, String.toList_ofList, List.singleton_append, afterSemicolonIn?]
      rcases isDelimiterChar_cases hd with rfl | rfl | rfl
      · exact ih' (n + 1)
      · exact ih' (n - 1)
      · by_cases hn : n = 0
        · subst hn
          rfl
        · simpa [hn] using ih' n
    · have hne : ∀ d, isDelimiterChar d = true → t.text ≠ String.ofList [d] := fun d hd he => by
        rw [ht d (by rw [he, String.toList_ofList]; exact List.mem_singleton_self d)] at hd
        cases hd
      rw [afterSemicolonIn?_plain ht, afterSemicolon?, if_neg (hne '\x7b' rfl),
        if_neg (hne '\x7d' rfl), if_neg fun h => hne ';' rfl h.1]
      exact ih' n

/-- Without quotes, the statement of an enum ends with it. -/
theorem EnumLayout.afterSemicolonIn? {cs head body gap rest : List Char}
    (h : EnumLayout cs head body gap rest) : afterSemicolonIn? 0 cs = some rest := by
  have htype : ∀ c, isDelimiterChar c = true → isTypeChar c = false := fun c hc => by
    rcases isDelimiterChar_cases hc with rfl | rfl | rfl <;> decide
  have hhead : ∀ c ∈ head, isDelimiterChar c = false := fun c hc =>
    Bool.eq_false_iff.mpr fun hd => by
      have := h.isTypeChar_head c hc
      rw [htype c hd] at this
      cases this
  have hgap : ∀ c ∈ gap, isDelimiterChar c = false := fun c hc => Bool.eq_false_iff.mpr fun hd => by
    have := h.isBlank_gap c hc
    rw [isBlank_of_isDelimiterChar hd] at this
    cases this
  rw [h.text, afterSemicolonIn?_plain hhead, HeaderOutline.afterSemicolonIn?, if_pos rfl,
    afterSemicolonIn?_body h.isBrace_body, HeaderOutline.afterSemicolonIn?, if_neg (by decide),
    if_pos rfl, afterSemicolonIn?_plain hgap]
  rfl

/-! ## The beginnings of an enum -/

/-- A proper beginning of an enum without quotes neither holds an enum nor ends a statement. -/
theorem refuses_beginning {cs ds : List Char} {d : EnumDecl}
    (hq : ∀ c ∈ cs ++ ds, isQuote c = false) (h : enumDecl? (cs ++ ds) = some (d, []))
    (hne : ds ≠ []) : enumDecl? cs = none ∧ afterStatement? cs = none := by
  constructor
  · refine Option.eq_none_iff_forall_ne_some.mpr fun ⟨d', r⟩ h' => hne ?_
    exact (List.append_eq_nil_iff.mp (enumDecl?_append_rest h h').symm).2
  · refine Option.eq_none_iff_forall_ne_some.mpr fun r hr => hne ?_
    obtain ⟨ts, hts, -⟩ := Option.map_eq_some_iff.mp hr
    rw [afterSemicolon?_tokens fun c hc => hq c (List.mem_append_left _ hc)] at hts
    obtain ⟨r', hr', -⟩ := Option.map_eq_some_iff.mp hts
    obtain ⟨_, _, _, hl, -⟩ := layout_of_enumDecl? h
    have hend := hl.afterSemicolonIn?
    rw [afterSemicolonIn?_append hr', Option.some.injEq] at hend
    exact (List.append_eq_nil_iff.mp hend).2

/-- An enum that is all of a text has no blanks at its ends. -/
theorem trim_of_enumDecl? {cs : List Char} {d : EnumDecl} (h : enumDecl? cs = some (d, [])) :
    trim cs = cs := by
  obtain ⟨front, hfront⟩ := semicolon_of_enumDecl? h
  have hstart : trimStart cs = cs := by
    simp only [enumDecl?, Option.bind_eq_bind, Option.bind_eq_some_iff] at h
    obtain ⟨r, hr, -⟩ := h
    rw [← append_of_afterWord? hr]
    exact trimStart_cons (by decide) _
  rw [trim, hstart, ← hfront]
  exact trimEnd_append_of_last (by decide) front []

/-- The word `enum` in front of a text stands in front of the first line too. -/
theorem startsEnum_of_append {cs ds : List Char} (h : startsEnum (cs ++ ds) = true)
    (hds : ∀ c ∈ ds.head?, isBlank c = true) (hcs : cs ≠ []) : startsEnum cs = true := by
  obtain ⟨r, hr⟩ := Option.isSome_iff_exists.mp h
  have happ := append_of_afterWord? hr
  have hword : startsWord r = false := by
    simpa using (Option.filter_eq_some_iff.mp hr).2
  rcases List.append_eq_append_iff.mp happ with ⟨x, rfl, hx⟩ | ⟨x, hx, rfl⟩
  · have hparted : startsWord x = false := by
      cases x with
      | nil => rfl
      | cons c x => rw [hx] at hword; exact hword
    rw [startsEnum, afterWord?, after?_append, Option.filter_some, hparted]
    rfl
  · cases x with
    | nil =>
      rw [List.append_nil] at hx
      rw [← hx]
      decide
    | cons c x =>
      have hc : c ∈ "enum".toList := by rw [hx]; simp
      have hletters : ∀ c ∈ "enum".toList, isBlank c = false := by decide
      exact absurd (hds c rfl) (by rw [hletters c hc]; exact Bool.false_ne_true)

/-- A proper beginning of some lines, joined again, is a proper beginning of their text. -/
theorem exists_append_withLines (text : List Char) {ls : List SourceLine} {i : Nat}
    (hi : i < ls.length) :
    ∃ ds, withLines text (ls.take i) ++ ' ' :: ds = withLines text ls := by
  obtain ⟨l, later, hl⟩ : ∃ l later, ls.drop i = l :: later :=
    ⟨ls[i], ls.drop (i + 1), (List.cons_getElem_drop_succ).symm⟩
  refine ⟨withLines l.text later, ?_⟩
  rw [← withLines_cons, ← hl, ← withLines_append, List.take_append_drop]

/-! ## The reading -/

namespace State

theorem structural_enter (line : SourceLine) (s : State) :
    structural (callbacksOf (s.enter line).1) = [] := by
  unfold enter
  split
  · rfl
  · cases s.group <;> rfl

/-- An enum that has been gathered to the end of its lines is read in one step. -/
theorem reads_gathered {s : State} {line : SourceLine} {pending later : List SourceLine}
    {d : EnumDecl} {merges : Nat} (hc : s.scopes.context.holdsDeclarations)
    (hp : s.pending = line :: pending) (hstart : startsEnum line.text = true)
    (hg : gatherEnum 0 line.text pending = ⟨.body d, [], merges, later⟩) :
    ∃ es u, Reads s es u ∧
      structural (callbacksOf es) = [⟨.enum d, line.number, s.scopes⟩] ∧
      u.scopes = s.scopes ∧ u.pending = later := by
  obtain ⟨h1, h2, -⟩ := enter_fields line { s with pending := pending }
  have hline := line_enter line { s with pending := pending }
  have henter := structural_enter line { s with pending := pending }
  generalize hu : ({ s with pending := pending }.enter line).2 = u at h1 h2 hline
  have hg : gatherEnum 0 line.text u.countDispatched.pending = ⟨.body d, [], merges, later⟩ := by
    rw [← hg]
    exact congrArg _ h2
  have hm : u.found? line = some (.enumHead, .enumHead, line.text) := by
    rw [found?, h1]
    exact match?_startsEnum hc hstart
  let t := (({ u.countDispatched with pending := later } : State).countMerges merges).countConstruct
  have hd : u.dispatch line =
      ([.note (.matched line.number .enumHead), u.callback (.enum d)], .ok t) := by
    rw [dispatch_of_found? hm, act_enumHead hg]
    rfl
  refine ⟨_, t, .one hp (by rw [step, hu, hd]), ?_, h1, rfl⟩
  rw [callbacksOf_append, structural_append, henter, callbacksOf_note, callbacksOf_callback, hline,
    h1]
  rfl

end State

open State in
/-- The words of an enum may be laid out on lines in any way. When these lines come to the front
where declarations are, one step reads them all and reports the enum, at the number of the first
line. -/
theorem reads_enumLines {t cs : List Char} {d : EnumDecl} (ht : noComment t = true)
    (hd : enumDecl? t = some (d, [])) (hcs : words cs = words t) {s : State} {line : SourceLine}
    {ls later : List SourceLine} (hc : s.scopes.context.holdsDeclarations)
    (hp : s.pending = line :: (ls ++ later))
    (hlines : (line :: ls).map (·.text) = (SourceLine.ofSource cs).map (·.text)) :
    ∃ es u, Reads s es u ∧
      structural (callbacksOf es) = [⟨.enum d, line.number, s.scopes⟩] ∧
      u.scopes = s.scopes ∧ u.pending = later := by
  have hfree : noComment cs = true := by
    rw [noComment_iff_words, hcs, ← noComment_iff_words]
    exact ht
  -- The lines joined again have the words of the text, and so its enum.
  have htexts : ∀ w ∈ line.text :: ls.map (·.text), Solid w := fun w hw => by
    rw [← List.map_cons, hlines] at hw
    obtain ⟨x, hx, rfl⟩ := List.mem_map.mp hw
    exact (SourceLine.mem_ofLines (.inl rfl) (SourceLine.newline_notMem_lines cs) hx).1
  have hsolid : Solid (withLines line.text ls) := .withLines htexts
  have hwords : words (withLines line.text ls) = words t := by
    rw [words_withLines, ← List.map_cons, hlines, texts_ofSource hfree, words_textLines, hcs]
  have hjoined : enumDecl? (withLines line.text ls) = some (d, []) := by
    refine enumDecl?_of_words (trim_of_enumDecl? hd) ?_ hwords hd
    simpa [trimEnd, trimStart] using hsolid.trim_append []
  have hquotes : ∀ c ∈ withLines line.text ls, isQuote c = false := isQuote_of_noComment (by
    rw [noComment_iff_words, hwords, ← noComment_iff_words]
    exact ht)
  have hgather : gatherEnum 0 line.text (ls ++ later) = ⟨.body d, [], 0 + ls.length, later⟩ := by
    refine gatherEnum_joined later (fun i hi => ?_) hjoined
    obtain ⟨ds, happ⟩ := exists_append_withLines line.text hi
    rw [← happ] at hquotes hjoined
    exact refuses_beginning hquotes hjoined (List.cons_ne_nil _ _)
  refine reads_gathered hc hp ?_ hgather
  have hstart : startsEnum (withLines line.text ls) = true := by
    simp only [enumDecl?, Option.bind_eq_bind, Option.bind_eq_some_iff] at hjoined
    obtain ⟨r, hr, -⟩ := hjoined
    rw [startsEnum, hr]
    rfl
  cases ls with
  | nil => exact hstart
  | cons l ls =>
    rw [withLines_cons] at hstart
    refine startsEnum_of_append hstart (fun c hc => ?_) ?_
    · cases hc
      exact isBlank_space
    · obtain ⟨c, r, hline, -⟩ := (htexts line.text List.mem_cons_self).head
      rw [hline]
      exact List.cons_ne_nil c r

/-- An enum on one line. -/
def modeText : List Char :=
  "enum class Mode : std::uint8_t \x7b Off, On = 1 << 2, \x7d;".toList

/-- The same words on several lines, one of them blank. -/
def modeLines : List Char :=
  "  enum class\nMode : std::uint8_t\r\n\x7b\n\n\tOff, On = 1\n<< 2,\n\x7d;\n".toList

def mode : EnumDecl :=
  ⟨some "Mode", ["Off", "On"]⟩

/-- The lines in a class, with the end of that behind them. -/
def beforeMode : State :=
  ⟨SourceLine.ofLines .code 4 (lines modeLines) ++ [⟨12, "\x7d;".toList⟩],
    [.classBody (.ofHead "Store" .isClass none)], some ⟨3, "public:".toList⟩, ⟨5, 1, 0, 0⟩⟩

theorem reads_enumLines_mode :
    noComment modeText = true ∧ enumDecl? modeText = some (mode, []) ∧
      words modeLines = words modeText ∧
      ∃ es u, State.Reads beforeMode es u ∧
        structural (callbacksOf es) = [⟨.enum mode, 4, beforeMode.scopes⟩] ∧
        u.scopes = beforeMode.scopes ∧ u.pending = [⟨12, "\x7d;".toList⟩] := by
  have ht : noComment modeText = true := by decide
  have hd : enumDecl? modeText = some (mode, []) := by decide +kernel
  have hcs : words modeLines = words modeText := by decide +kernel
  refine ⟨ht, hd, hcs, ?_⟩
  exact @reads_enumLines modeText modeLines mode ht hd hcs beforeMode ⟨4, "enum class".toList⟩
    (SourceLine.ofLines .code 4 (lines modeLines)).tail _ (.inr rfl) rfl (by decide)

end HeaderOutline
