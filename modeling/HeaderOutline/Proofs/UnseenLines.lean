import HeaderOutline.Proofs.CleanPrefix
/-!
# Lines that are not seen

Lines of blanks and comments are dropped before anything is read, and what is read does not look at
line numbers beyond telling lines apart. So such lines may stand anywhere between the lines of a
header, unless a block comment is open there: all that is put out stays as it was, under the numbers
that the lines then have.

`Gap` tells which texts may be put in: blanks, line comments with their line feeds, and block
comments, which may run over several lines and must be closed.

Results:
* `parse_renumber`: a header whose lines are those of another one, under other numbers.
* `ofSource_insert`: the lines of a header with lines of a gap put in.
* `parse_insert_gap`: the readings of the two headers.
-/
namespace HeaderOutline
open Text

/-! ## Whole lines -/

namespace Text

def WholeLines (cs : List Char) : Prop :=
  cs = [] ∨ cs.getLast? = some '\n'

instance (cs : List Char) : Decidable (WholeLines cs) :=
  inferInstanceAs (Decidable (_ ∨ _))

/-- A text of whole lines has a first one, unless it is empty. -/
theorem WholeLines.cases {cs : List Char} (h : WholeLines cs) :
    cs = [] ∨ ∃ l r, cs = l ++ '\n' :: r ∧ '\n' ∉ l ∧ WholeLines r := by
  rcases h with h | h
  · exact .inl h
  refine .inr ?_
  have hcs := lineHead_append_lineRest cs
  rcases lineRest_cases cs with hr | ⟨r, hr⟩
  · rw [hr, List.append_nil] at hcs
    have hb := lineHead_noBreak cs
    rw [hcs] at hb
    exact absurd (List.mem_of_getLast? h) hb
  · refine ⟨lineHead cs, r, by rw [← hr, hcs], lineHead_noBreak cs, ?_⟩
    cases hx : r with
    | nil => exact .inl rfl
    | cons c r' =>
      rw [← hcs, hr, hx, List.getLast?_append] at h
      rw [List.getLast?_cons_cons] at h
      exact .inr (by simpa using h)

theorem WholeLines.of_append {a b : List Char} (h : WholeLines (a ++ b)) : WholeLines b := by
  rcases h with h | h
  · exact .inl (List.append_eq_nil_iff.mp h).2
  cases b with
  | nil => exact .inl rfl
  | cons c b => exact .inr (by rwa [List.getLast?_append_of_ne_nil _ (by simp)] at h)

theorem lines_line {l : List Char} (h : '\n' ∉ l) (r : List Char) :
    lines (l ++ '\n' :: r) = dropEnd (l ++ ['\n']) :: lines r := by
  rw [lines, rawLines_append_break h, List.map_cons, lines]

/-- Whole lines in front of a text are lines of the whole, and as many as line feeds. -/
theorem WholeLines.lines_append {as : List Char} (h : WholeLines as) (bs : List Char) :
    lines (as ++ bs) = lines as ++ lines bs ∧ (lines as).length = as.count '\n' := by
  rcases h with rfl | h
  · exact ⟨rfl, rfl⟩
  obtain ⟨r, rfl⟩ := List.getLast?_eq_some_iff.mp h
  refine ⟨?_, ?_⟩
  · rw [List.append_assoc, List.singleton_append, Text.lines_append]
  · rw [length_lines_newline, List.count_append]
    rfl

end Text

namespace SourceLine

/-- The text leaves no line, and no comment open, when it begins in the mode. -/
def Unseen (m : Mode) (cs : List Char) : Prop :=
  ofLines m 0 (lines cs) = [] ∧ m.afterLines (lines cs) = .code

/-- The number that lines begin with does not matter for which of them are seen. -/
theorem ofLines_eq_nil_iff (m : Mode) (n : Nat) (ls : List (List Char)) :
    ofLines m n ls = [] ↔ ofLines m 0 ls = [] := by
  have h := ofLines_add m 0 n ls
  rw [Nat.zero_add] at h
  rw [h, List.map_eq_nil_iff]

/-- Of a text that is not seen, the first line is blank once it is stripped. -/
theorem unseen_line {m : Mode} (hm : m = .code ∨ m = .comment) {l : List Char} (h : '\n' ∉ l)
    (r : List Char) :
    Unseen m (l ++ '\n' :: r) ↔ trim (strip m l).1 = [] ∧ Unseen (strip m l).2.nextLine r := by
  obtain ⟨h1, h2⟩ := strip_dropEnd hm h
  simp only [Unseen, lines_line h, ofLines, h1, h2, Mode.afterLines, List.foldl_cons]
  cases trim (strip m l).1 with
  | nil => simp only [List.isEmpty_nil, if_true, true_and, ofLines_eq_nil_iff _ (0 + 1)]
  | cons c r => simp

/-! ## Gaps -/

/-- Blanks and comments: line comments with their line feeds, and closed block comments. -/
inductive Gap : List Char → Prop
  | nil : Gap []
  | blank {c : Char} {g : List Char} : isBlank c = true → Gap g → Gap (c :: g)
  | lineComment {t g : List Char} : '\n' ∉ t → Gap g → Gap ('/' :: '/' :: t ++ '\n' :: g)
  /-- The mark that closes the comment stands at the end of its text, and not before. -/
  | blockComment {t g : List Char} : ¬ ['*', '/'] <:+: t ++ ['*'] → Gap g →
      Gap ('/' :: '*' :: t ++ '*' :: '/' :: g)

/-- Characters in front of the first line that leave it blank. -/
theorem Unseen.prepend {m m' : Mode} {p cs : List Char} (hm : m = .code ∨ m = .comment)
    (hm' : m' = .code ∨ m' = .comment) (hp : '\n' ∉ p) (hne : p ≠ []) (hw : WholeLines (p ++ cs))
    (hs : ∀ l, l <+: cs → (strip m' (p ++ l)).2 = (strip m l).2 ∧
      (trim (strip m l).1 = [] → trim (strip m' (p ++ l)).1 = []))
    (h : Unseen m cs) : Unseen m' (p ++ cs) := by
  rcases hw.of_append.cases with rfl | ⟨l, r, rfl, hl, -⟩
  · rw [List.append_nil] at hw
    exact absurd (List.mem_of_getLast? (hw.resolve_left hne)) hp
  · obtain ⟨h1, h2⟩ := hs l ⟨_, rfl⟩
    obtain ⟨h3, h4⟩ := (unseen_line hm hl r).mp h
    have hl' : '\n' ∉ p ++ l := by simp [hp, hl]
    rw [← List.append_assoc, unseen_line hm' hl', h1]
    exact ⟨h2 h3, h4⟩

theorem strip_blank {c : Char} (h : isBlank c = true) (r : List Char) :
    strip .code (c :: r) = (c :: (strip .code r).1, (strip .code r).2) := by
  have hs : c ≠ '/' := by rintro rfl; revert h; decide
  have hq : isQuote c = false := by
    rw [Bool.eq_false_iff]
    intro hq
    simp only [isQuote, Bool.or_eq_true, beq_iff_eq] at hq
    rcases hq with rfl | rfl <;> revert h <;> decide
  rw [strip, hq]
  · rfl
  · exact fun _ h => absurd h hs
  · exact fun _ h => absurd h hs

theorem strip_close (r : List Char) :
    strip .comment ('*' :: '/' :: r) = (' ' :: (strip .code r).1, (strip .code r).2) := by
  rw [strip]

theorem strip_comment {c : Char} {r : List Char} (h : c = '*' → r.head? ≠ some '/') :
    strip .comment (c :: r) = strip .comment r := by
  rw [strip]
  rintro r' rfl rfl
  exact h rfl rfl

/-- A block comment that is open where the text begins, and closed where its mark first stands. -/
theorem unseen_comment {t g : List Char} (ht : ¬ ['*', '/'] <:+: t ++ ['*'])
    (hw : WholeLines (t ++ '*' :: '/' :: g)) (hg : Unseen .code g) :
    Unseen .comment (t ++ '*' :: '/' :: g) := by
  induction t with
  | nil =>
    refine hg.prepend (p := ['*', '/']) (.inl rfl) (.inr rfl) (by decide) (by simp) hw fun l _ => ?_
    rw [List.cons_append, List.singleton_append, strip_close]
    exact ⟨rfl, fun h => by rw [trim_blank (by decide), h]⟩
  | cons c t ih =>
    have ih := ih (fun h => ht (h.trans (List.suffix_cons c _).isInfix))
      (WholeLines.of_append (a := [c]) hw)
    by_cases hc : c = '\n'
    · have hx := (unseen_line (.inr rfl) (l := []) (by simp) (t ++ '*' :: '/' :: g)).mpr
        ⟨rfl, ih⟩
      rw [hc]
      exact hx
    · refine ih.prepend (p := [c]) (.inr rfl) (.inr rfl) (by simpa using Ne.symm hc) (by simp) hw
        fun l hl => ?_
      -- Behind a star no slash follows, or the comment would be closed here.
      have hstar : c = '*' → l.head? ≠ some '/' := by
        rintro rfl hh
        obtain ⟨r, rfl⟩ := List.head?_eq_some_iff.mp hh
        obtain ⟨x, hx⟩ := hl
        cases t with
        | nil => simp at hx
        | cons d t =>
          obtain ⟨rfl, -⟩ := List.cons.inj hx
          exact ht ⟨[], t ++ ['*'], rfl⟩
      rw [List.singleton_append, strip_comment hstar]
      exact ⟨rfl, id⟩

theorem Gap.unseen {g : List Char} (h : Gap g) (hw : WholeLines g) : Unseen .code g := by
  induction h with
  | nil => exact ⟨rfl, rfl⟩
  | @blank c g hc _ ih =>
    have ih := ih (WholeLines.of_append (a := [c]) hw)
    by_cases hn : c = '\n'
    · rw [hn]
      exact (unseen_line (.inl rfl) (l := []) (by simp) g).mpr ⟨rfl, ih⟩
    · refine ih.prepend (p := [c]) (.inl rfl) (.inl rfl) (by simpa using Ne.symm hn) (by simp) hw
        fun l _ => ?_
      rw [List.singleton_append, strip_blank hc]
      exact ⟨rfl, fun h => by rw [trim_blank hc, h]⟩
  | @lineComment t g ht _ ih =>
    have hl : '\n' ∉ '/' :: '/' :: t := by simpa using ht
    have ih := ih (WholeLines.of_append (a := '/' :: '/' :: t ++ ['\n']) (by simpa using hw))
    refine (unseen_line (.inl rfl) hl g).mpr ?_
    rw [strip]
    exact ⟨rfl, ih⟩
  | @blockComment t g ht _ ih =>
    have ih := ih (WholeLines.of_append (a := '/' :: '*' :: t ++ ['*', '/']) (by simpa using hw))
    have hc := unseen_comment ht (WholeLines.of_append (a := ['/', '*']) hw) ih
    refine hc.prepend (p := ['/', '*']) (.inr rfl) (.inl rfl) (by decide) (by simp) hw fun l _ => ?_
    rw [List.cons_append, List.singleton_append, strip]
    exact ⟨rfl, id⟩

/-! ## Lines with a gap between them -/

/-- The number that line `n` bears once `k` lines are put in below the first `p`. -/
def below (p k n : Nat) : Nat :=
  if n ≤ p then n else n + k

theorem below_injective (p k : Nat) : Function.Injective (below p k) := by
  intro m n h
  unfold below at h
  split at h <;> split at h <;> omega

/-- Lines of a gap change the numbers of the lines below. -/
theorem ofSource_insert {as gs bs : List Char} (ha : WholeLines as) (hc : ¬ EndsInComment as)
    (hg : Gap gs) (hw : WholeLines gs) :
    ofSource (as ++ gs ++ bs) =
      (ofSource (as ++ bs)).map (.renumber (below (as.count '\n') (gs.count '\n'))) := by
  have hm : Mode.code.afterLines (lines as) = .code :=
    (afterLines_cases (.inl rfl) _).resolve_right hc
  obtain ⟨hu, hug⟩ := hg.unseen hw
  obtain ⟨h1, h2⟩ := ha.lines_append bs
  obtain ⟨h3, h4⟩ := hw.lines_append bs
  have habove : ∀ l ∈ ofLines .code 1 (lines as),
      l.renumber (below (as.count '\n') (gs.count '\n')) = l := fun l hl => by
    have hn := (number_of_mem_ofLines hl).2
    rw [renumber, below, if_pos (by omega)]
  have hbelow : ∀ l ∈ ofLines .code (1 + as.count '\n') (lines bs),
      l.renumber (· + gs.count '\n') =
        l.renumber (below (as.count '\n') (gs.count '\n')) := fun l hl => by
    have hn := (number_of_mem_ofLines hl).1
    rw [renumber, renumber, below, if_neg (by omega)]
  rw [ofSource, ofSource, List.append_assoc, (ha.lines_append _).1, h1, h3, ofLines_append,
    ofLines_append, ofLines_append, hm, h2, h4, hug, (ofLines_eq_nil_iff ..).mpr hu,
    List.nil_append, ofLines_add, List.map_append, List.map_congr_left hbelow,
    List.map_congr_left habove, List.map_id']

end SourceLine

/-! ## Readings under other numbers -/

/-- What a finished reading tells of a header, but for the number of physical lines. -/
def Finished.withLineCount (n : Nat) (f : Finished) : Finished :=
  ⟨⟨n, f.summary.constructs, f.summary.unclosedScopes⟩, f.tally, f.linesRead⟩

open State in
theorem run_startOf_renumber {a b : String} {ρ : Nat → Nat} (hρ : Function.Injective ρ)
    (h0 : ρ 0 = 0)
    (h : SourceLine.ofSource b.toList = (SourceLine.ofSource a.toList).map (.renumber ρ)) :
    (startOf b).run = renumberedResult ρ ⟨0, 0, 0, 0⟩ (startOf a).run := by
  have hs : startOf b = (startOf a).renumber ρ ⟨0, 0, 0, 0⟩ := by
    rw [startOf, h]
    rfl
  by_cases hp : (startOf a).pending = []
  · -- Where no line is read, what is put out bears the number 0.
    have hp' : (startOf b).pending = [] := by rw [hs, pending_renumber, hp]; rfl
    have hb : (startOf b).close = [.callback ⟨.parseEnd, 0, []⟩] := rfl
    have ha : (startOf a).close = [.callback ⟨.parseEnd, 0, []⟩] := rfl
    rw [run_of_pending_nil hp, run_of_pending_nil hp', hb, ha, hs]
    simp [renumberedResult, Entry.renumber, Callback.renumber, h0]
  · rw [hs, run_renumber hρ (.inl hp)]

open State in
/-- A header whose lines are those of another one, under other numbers, is read alike. -/
theorem parse_renumber {a b : String} {ρ : Nat → Nat} (hρ : Function.Injective ρ) (h0 : ρ 0 = 0)
    (h : SourceLine.ofSource b.toList = (SourceLine.ofSource a.toList).map (.renumber ρ)) :
    (parse b).entries = (parse a).entries.map (.renumber ρ) ∧
      (∀ e, (parse a).result = .error e → (parse b).result = .error (e.renumber ρ)) ∧
      ∀ f, (parse a).result = .ok f → (parse b).result =
        .ok (f.withLineCount (lines b.toList).length) := by
  have hrun := run_startOf_renumber hρ h0 h
  have hfirst : (Entry.callback ⟨.parseStart, 0, []⟩).renumber ρ =
      .callback ⟨.parseStart, 0, []⟩ := by
    simp [Entry.renumber, Callback.renumber, h0]
  rcases hr : (startOf a).run with ⟨es, e | t⟩
  · rw [hr] at hrun
    obtain ⟨-, hea, -⟩ := parse_of_run hr
    obtain ⟨-, heb, -⟩ := parse_of_run hrun
    refine ⟨?_, fun e' he => ?_, fun f hf => ?_⟩
    · rw [entries_of_run hr, entries_of_run hrun, List.map_cons, hfirst]
      simp
    · rw [hea e rfl] at he
      cases he
      exact heb _ rfl
    · rw [hea e rfl] at hf
      cases hf
  · rw [hr] at hrun
    obtain ⟨-, -, hoa⟩ := parse_of_run hr
    obtain ⟨-, -, hob⟩ := parse_of_run hrun
    have ht : (⟨0, 0, 0, 0⟩ : Tally) + t.tally = t.tally := by
      show Tally.mk _ _ _ _ = _
      simp only [Nat.zero_add]
    refine ⟨?_, fun e' he => ?_, fun f hf => ?_⟩
    · rw [entries_of_run hr, entries_of_run hrun, List.map_cons, hfirst]
      simp only [renumber, ht, List.map_append]
      rfl
    · rw [hoa t rfl] at he
      cases he
    · rw [hoa t rfl] at hf
      cases hf
      rw [hob _ rfl, h, List.length_map]
      simp only [renumber, ht]
      rfl

theorem lineCount_of_ok {source : String} {f : Finished} (h : (parse source).result = .ok f) :
    f.summary.lineCount = (lines source.toList).length := by
  obtain ⟨-, herr, hok⟩ := parse_of_run (Prod.eta (startOf source).run).symm
  cases hr : (startOf source).run.2 with
  | error e => rw [herr e hr] at h; cases h
  | ok t => rw [hok t hr] at h; cases h; rfl

/-- Lines of blanks and closed comments may be put between the lines of a header where no block
comment is open: all that is put out stays, callbacks and notes, and so do success, error and
counts. Only the numbers of the lines below change, each to that of its new place. -/
theorem parse_insert_gap {a g b : String} (ha : WholeLines a.toList)
    (hc : ¬ SourceLine.EndsInComment a.toList) (hg : SourceLine.Gap g.toList)
    (hw : WholeLines g.toList) :
    (parse (a ++ g ++ b)).entries = (parse (a ++ b)).entries.map
        (.renumber (SourceLine.below (lineFeeds a) (lineFeeds g))) ∧
      (parse (a ++ g ++ b)).callbacks = (parse (a ++ b)).callbacks.map
        (.renumber (SourceLine.below (lineFeeds a) (lineFeeds g))) ∧
      (parse (a ++ g ++ b)).result = match (parse (a ++ b)).result with
        | .error e => .error ⟨SourceLine.below (lineFeeds a) (lineFeeds g) e.line⟩
        | .ok f => .ok (f.withLineCount (f.summary.lineCount + lineFeeds g)) := by
  have hsource : SourceLine.ofSource (a ++ g ++ b).toList =
      (SourceLine.ofSource (a ++ b).toList).map
        (.renumber (SourceLine.below (lineFeeds a) (lineFeeds g))) := by
    simp only [String.toList_append]
    exact SourceLine.ofSource_insert ha hc hg hw
  have hlen : (lines (a ++ g ++ b).toList).length =
      (lines (a ++ b).toList).length + lineFeeds g := by
    obtain ⟨h1, h2⟩ := hw.lines_append b.toList
    simp only [String.toList_append, List.append_assoc, (ha.lines_append _).1, h1,
      List.length_append, h2, lineFeeds]
    omega
  obtain ⟨he, herr, hok⟩ := parse_renumber (SourceLine.below_injective _ _)
    (by simp [SourceLine.below]) hsource
  refine ⟨he, by rw [callbacks_eq, he, callbacksOf_renumber, callbacks_eq], ?_⟩
  cases hr : (parse (a ++ b)).result with
  | error e => exact herr e hr
  | ok f =>
    rw [hok f hr, hlen, ← lineCount_of_ok hr]

/-- A class with a method in two lines, and a brace too many. -/
def splitMethod : String × String :=
  ("class C \x7b\n int g(\n", "  int x);\n\x7d; \x7d")

/-- A line comment, a blank line, and a block comment of two lines. -/
def threeGaps : String :=
  " // f \x7b\n\n/* two\n * lines */\t\n"

theorem parse_insert_gap_method :
    (parse (splitMethod.1 ++ splitMethod.2)).result = .error ⟨4⟩ ∧
      (parse (splitMethod.1 ++ threeGaps ++ splitMethod.2)).result = .error ⟨8⟩ := by
  have ha : WholeLines splitMethod.1.toList := by decide +kernel
  have hw : WholeLines threeGaps.toList := by decide +kernel
  have hc : ¬ SourceLine.EndsInComment splitMethod.1.toList := by decide +kernel
  have hg : SourceLine.Gap threeGaps.toList := by
    have h : threeGaps.toList = ' ' :: ('/' :: '/' :: [' ', 'f', ' ', '\x7b'] ++ '\n' :: '\n' ::
      ('/' :: '*' :: " two\n * lines ".toList ++ '*' :: '/' :: '\t' :: '\n' :: [])) := by
      decide +kernel
    rw [h]
    exact .blank (by decide) (.lineComment (by decide) (.blank (by decide)
      (.blockComment (by decide +kernel) (.blank (by decide) (.blank (by decide) .nil)))))
  have he : (parse (splitMethod.1 ++ splitMethod.2)).result = .error ⟨4⟩ := by decide +kernel
  refine ⟨he, ?_⟩
  have h := (parse_insert_gap ha hc hg hw (b := splitMethod.2)).2.2
  rw [he] at h
  exact h

end HeaderOutline
