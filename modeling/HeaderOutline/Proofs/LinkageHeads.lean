import HeaderOutline.Proofs.Delimiters
import HeaderOutline.Proofs.Resuming
import HeaderOutline.Proofs.UnseenLines
/-!
# Heads of linkage blocks

`extern "C" {`, some lines, and `}`. The head stands on a line of its own, and so does each brace,
so the lines of the header inside are the lines of the block but the outer ones, with other numbers.
Within a string nothing is a comment, so the head is kept as it stands, whatever the language is
called.

Results:
* `ofSource_line`: the lines behind a line of their own.
* `match?_head`: how the head of a block is matched, with its brace and without.
* `enters_block`, `enters_split`: the first steps, with the brace behind the head and below it.
-/
namespace HeaderOutline
open Text State

/-! ## Heads -/

/-- The name of a language in a linkage block: a text in one line without quotes. -/
structure LanguageName where
  text : List Char
  noQuote : '\x22' ∉ text
  noBreak : '\n' ∉ text

namespace LanguageName

def c : LanguageName :=
  ⟨['C'], by decide, by decide⟩

def head (L : LanguageName) : List Char :=
  "extern".toList ++ ' ' :: '\x22' :: (L.text ++ ['\x22'])

theorem head_append (L : LanguageName) (tail : List Char) :
    L.head ++ tail = "extern".toList ++ ' ' :: '\x22' :: (L.text ++ '\x22' :: tail) := by
  delta head
  rw [List.append_assoc]
  exact congrArg ("extern".toList ++ ·) (by simp)

end LanguageName

namespace SourceLine

/-- The line is kept as it stands, and no comment runs on behind it. -/
def Kept (m : Mode) (l : List Char) : Prop :=
  (strip m l).1 = l ∧ (strip m l).2 ≠ .comment

theorem kept_cons {m n : Mode} {c : Char} {l : List Char}
    (hs : strip m (c :: l) = (c :: (strip n l).1, (strip n l).2)) (h : Kept n l) :
    Kept m (c :: l) := by
  rw [Kept, hs]
  exact ⟨congrArg (c :: ·) h.1, h.2⟩

theorem kept_escape {q c : Char} {l : List Char} (h : Kept (.quoted q) l) :
    Kept (.quoted q) ('\\' :: c :: l) := by
  have hs : strip (.quoted q) ('\\' :: c :: l) =
      ('\\' :: c :: (strip (.quoted q) l).1, (strip (.quoted q) l).2) := by rw [strip]
  rw [Kept, hs]
  exact ⟨congrArg ('\\' :: c :: ·) h.1, h.2⟩

theorem kept_quote {l : List Char} (h : Kept .code l) : Kept (.quoted '\x22') ('\x22' :: l) := by
  refine kept_cons (n := .code) ?_ h
  rw [strip]
  · rfl
  · exact fun _ _ h => absurd h (by decide)

theorem kept_word {w l : List Char} (hw : ∀ c ∈ w, c ≠ '/' ∧ isQuote c = false)
    (h : Kept .code l) : Kept .code (w ++ l) := by
  induction w with
  | nil => exact h
  | cons c w ih =>
    obtain ⟨hs, hq⟩ := hw c List.mem_cons_self
    refine kept_cons (n := .code) ?_ (ih fun d hd => hw d (List.mem_cons_of_mem c hd))
    rw [strip, hq]
    · rfl
    · exact fun _ h => absurd h hs
    · exact fun _ h => absurd h hs

/-- The rest of a string and what is kept behind it are kept, also where a backslash hides the end
of the string. -/
theorem kept_string {text tail : List Char} (hq : '\x22' ∉ text) (hcode : Kept .code tail)
    (hquoted : Kept (.quoted '\x22') tail) : Kept (.quoted '\x22') (text ++ '\x22' :: tail) := by
  generalize hn : text.length = n
  induction n using Nat.strongRecOn generalizing text with
  | ind n ih =>
    cases text with
    | nil => exact kept_quote hcode
    | cons c r =>
      have hc : c ≠ '\x22' := fun h => hq (h ▸ List.mem_cons_self)
      have hr : '\x22' ∉ r := fun h => hq (List.mem_cons_of_mem c h)
      by_cases hb : c = '\\'
      · subst hb
        cases r with
        | nil => exact kept_escape hquoted
        | cons d r =>
          have hd : '\x22' ∉ r := fun h => hr (List.mem_cons_of_mem d h)
          exact kept_escape (ih r.length (by rw [← hn]; simp only [List.length_cons]; omega) hd rfl)
      · refine kept_cons (n := .quoted '\x22') ?_
          (ih r.length (by rw [← hn]; exact Nat.lt_succ_self _) hr rfl)
        rw [strip, if_neg hc]
        exact fun _ _ h _ => hb h

/-- The head is kept, with anything behind it that may stand behind a string. -/
theorem kept_head (L : LanguageName) {tail : List Char} (hcode : Kept .code tail)
    (hquoted : Kept (.quoted '\x22') tail) : Kept .code (L.head ++ tail) := by
  rw [L.head_append]
  refine kept_word (by decide) (kept_word (w := [' ']) (by decide)
    (kept_cons (n := .quoted '\x22') ?_ (kept_string L.noQuote hcode hquoted)))
  rw [strip]
  · rfl
  · exact fun _ h => absurd h (by decide)
  · exact fun _ h => absurd h (by decide)

/-! ## Lines of their own -/

theorem trim_solid {w : List Char} (h : Solid w) : trim w = w := by
  have := h.trim_append []
  simpa [trimEnd, trimStart] using this

theorem lines_of_solid {w : List Char} (h : Solid w) : lines w = [w] := by
  obtain ⟨c, r, hw, -⟩ := h.head
  rw [lines, rawLines_of_noBreak h.noBreak (by rw [hw]; simp), List.map_singleton,
    dropEnd_of_noBreak h.noBreak]

theorem ofSource_solid {w : List Char} (h : Solid w) (hk : Kept .code w) :
    ofSource w = [⟨1, w⟩] := by
  obtain ⟨c, r, hw, -⟩ := h.head
  rw [ofSource, lines_of_solid h]
  simp only [ofLines, hk.1, trim_solid h]
  rw [if_neg (by rw [hw]; simp)]

theorem not_endsInComment_solid {w : List Char} (h : Solid w) (hk : Kept .code w) :
    ¬ EndsInComment w := by
  rw [EndsInComment, lines_of_solid h]
  simp only [Mode.afterLines, List.foldl_cons, List.foldl_nil]
  intro hc
  have := hk.2
  cases hm : (strip .code w).2 with
  | comment => exact this hm
  | code | quoted => rw [hm] at hc; cases hc

/-- No comment is left open where none is left open in the last line and those before it. -/
theorem not_endsInComment_append {as bs : List Char} (ha : ¬ EndsInComment as)
    (hb : ¬ EndsInComment bs) : ¬ EndsInComment (as ++ '\n' :: bs) := by
  have hc : Mode.code.afterLines (lines (as ++ ['\n'])) = .code := by
    rw [(ofLines_newline (.inl rfl) 1 as).2]
    exact (afterLines_cases (.inl rfl) _).resolve_right ha
  have h : Mode.code.afterLines (lines (as ++ '\n' :: bs)) = Mode.code.afterLines (lines bs) := by
    rw [lines_append, Mode.afterLines, List.foldl_append]
    exact congrArg (Mode.afterLines · (lines bs)) hc
  rwa [EndsInComment, h]

/-- The lines behind a line that is kept. -/
theorem ofSource_line {w : List Char} (h : Solid w) (hk : Kept .code w) (cs : List Char) :
    ofSource (w ++ '\n' :: cs) = ⟨1, w⟩ :: (ofSource cs).map (.renumber (· + 1)) := by
  rw [ofSource_append (not_endsInComment_solid h hk), ofSource_solid h hk,
    List.count_eq_zero.mpr h.noBreak]
  rfl

theorem solid_brace {d : Char} (hd : isDelimiterChar d = true) : Solid [d] :=
  Solid.single (isBlank_of_isDelimiterChar hd)

theorem kept_brace {d : Char} (hd : isDelimiterChar d = true) : Kept .code [d] := by
  rcases isDelimiterChar_cases hd with rfl | rfl | rfl <;> exact ⟨rfl, by decide⟩

end SourceLine

namespace LanguageName
open SourceLine

/-- What follows the head on its line: nothing, or the brace. -/
def Tail (tail : List Char) : Prop :=
  tail = [] ∨ tail = [' ', '\x7b']

variable {tail : List Char}

theorem solid_head (L : LanguageName) (ht : Tail tail) : Solid (L.head ++ tail) := by
  refine ⟨⟨'e', _, by rw [L.head_append]; rfl, by decide⟩, ?_, fun hn => ?_⟩
  · rcases ht with rfl | rfl
    · exact ⟨"extern".toList ++ ' ' :: '\x22' :: L.text, '\x22', by rw [L.head_append]; simp,
        by decide⟩
    · exact ⟨L.head ++ [' '], '\x7b', by simp, by decide⟩
  · have hword : '\n' ∉ "extern".toList := by decide
    have htail : '\n' ∉ tail := by rcases ht with rfl | rfl <;> decide
    simp [head_append, htail, L.noBreak] at hn

theorem kept_line (L : LanguageName) (ht : Tail tail) : Kept .code (L.head ++ tail) := by
  rcases ht with rfl | rfl
  · exact kept_head L ⟨rfl, by decide⟩ ⟨rfl, by decide⟩
  · exact kept_head L ⟨rfl, by decide⟩ ⟨rfl, by decide⟩

end LanguageName

/-! ## Matches -/

/-- The head is matched through the blanks behind it. It begins a block where the brace follows. -/
theorem match?_head (L : LanguageName) (tail : List Char) (className : Option String) :
    Rule.match? .nameSpace className (L.head ++ tail) =
      some (.linkage, .linkage ((trimStart tail).head? = some '\x7b'), trimStart tail) := by
  have hdrop : (L.text ++ '\x22' :: tail).dropWhile (· ≠ '\x22') = '\x22' :: tail := by
    rw [List.dropWhile_append_of_pos fun c hc => by
      simpa using fun h : c = '\x22' => L.noQuote (h ▸ hc)]
    rfl
  refine Rule.match?_of_recognize? rfl ?_ fun r hr ha => ?_
  · rw [L.head_append, Rule.recognize?, Rule.linkage?, after?_append]
    simp only [Option.bind_eq_bind, Option.bind_some,
      trimStart_blank (show isBlank ' ' = true from rfl),
      trimStart_cons (show isBlank '\x22' = false by decide), afterMark?, if_true, hdrop]
  · have hmark : afterMark? '#' (L.head ++ tail) = none := by rw [L.head_append]; rfl
    have hlist : Rule.all.takeWhile (· ≠ .linkage) = [.define, .directive, .access] := rfl
    rw [hlist] at hr
    simp only [List.mem_cons, List.not_mem_nil, or_false] at hr
    rcases hr with rfl | rfl | rfl
    · simp [Rule.recognize?, Rule.define?, hmark]
    · simp [Rule.recognize?, Rule.directive?, hmark]
    · cases ha

theorem match?_open (fs : ScopeStack) (className : Option String) :
    Rule.match? fs.context className ['\x7b'] = some (.openBrace, .openBrace, []) := by
  refine Rule.match?_delimiter (u := []) className (.nil fs) rfl (fun _ => rfl)
    (Rule.recognize?_opening (Passed.nil fs).quiet).1 fun r hr hb => ?_
  rcases hb with rfl | rfl <;> exact absurd hr (by decide)

theorem match?_close (fs : ScopeStack) (className : Option String) :
    Rule.match? fs.context className ['\x7d'] = some (.closeBrace, .closeBrace, []) := by
  have hr := @Rule.recognize?_closing [] [] [] className (Passed.nil fs).quiet .nil
    (show ∀ t ∈ (Token.tokens []).head?, t.text ≠ ";" by rw [Token.tokens_of_next?_none rfl]; simp)
  refine Rule.match?_delimiter (u := []) className (.nil fs) rfl (fun _ => rfl) hr.1
    fun r hmem hb => ?_
  rcases hb with rfl | rfl
  · exact hr.2
  · exact absurd hmem (by decide)

/-! ## First steps -/

namespace Construct

theorem does_linkage {fs : ScopeStack} (block : Bool) :
    (linkage block).Does fs [] (if block then .linkage false :: fs else fs) :=
  does_of_perform (by simp) (by simp) fun s hs => by
    cases block
    · exact ⟨rfl, hs, rfl, rfl⟩
    · exact ⟨rfl, by rw [← hs]; rfl, rfl, rfl⟩

end Construct

namespace State

theorem enters_open {s : State} {n : Nat} {later : List SourceLine} {gs : ScopeStack}
    (hp : s.pending = ⟨n, ['\x7b']⟩ :: later) (hk : Construct.openBrace.Does s.scopes [] gs) :
    ∃ u, Enters s [⟨some .openBrace, ['\x7b']⟩] gs n later u := by
  have hf : s.found? ⟨n, ['\x7b']⟩ = some (.openBrace, .openBrace, []) := match?_open ..
  have hpiece : s.piece ⟨n, ['\x7b']⟩ later = ⟨some .openBrace, ['\x7b']⟩ := by
    rw [piece, hf]
    rfl
  obtain ⟨u, hu⟩ := enters_of_does hp hf hk
  exact ⟨u, hpiece ▸ hu⟩

/-- The head of a block with its brace on one line. -/
theorem enters_block (L : LanguageName) {s : State} {n : Nat} {later : List SourceLine}
    (hp : s.pending = ⟨n, L.head ++ [' ', '\x7b']⟩ :: later) (hs : s.scopes = []) :
    ∃ p u, Enters s [p, ⟨some .openBrace, ['\x7b']⟩] [.linkage true] n later u := by
  have hf : s.found? ⟨n, L.head ++ [' ', '\x7b']⟩ =
      some (.linkage, .linkage true, ['\x7b']) := by
    rw [found?, hs]
    exact match?_head L [' ', '\x7b'] none
  have hk : (Construct.linkage true).Does s.scopes [] [.linkage false] := by
    rw [hs]
    exact Construct.does_linkage true
  obtain ⟨t, ht⟩ := enters_of_does hp hf hk
  have hopen : Construct.openBrace.Does t.scopes [] [.linkage true] := by
    rw [ht.scopes]
    exact Construct.does_openBrace rfl
  obtain ⟨u, hu⟩ := enters_open ht.pending hopen
  exact ⟨_, u, ht.trans hu⟩

/-- The head of a block and its brace on two lines: the brace is skipped. -/
theorem enters_split (L : LanguageName) {s : State} {m n : Nat} {later : List SourceLine}
    (hp : s.pending = ⟨m, L.head⟩ :: ⟨n, ['\x7b']⟩ :: later) (hs : s.scopes = []) :
    ∃ p u, Enters s [p, ⟨some .openBrace, ['\x7b']⟩] [.skip] n later u := by
  have hf : s.found? ⟨m, L.head⟩ = some (.linkage, .linkage false, []) := by
    have h := match?_head L [] none
    rw [List.append_nil] at h
    rw [found?, hs]
    exact h
  have hk : (Construct.linkage false).Does s.scopes [] [] := by
    rw [hs]
    exact Construct.does_linkage false
  obtain ⟨t, ht⟩ := enters_of_does hp hf hk
  have hopen : Construct.openBrace.Does t.scopes [] [.skip] := by
    rw [ht.scopes]
    exact Construct.does_openSkip fun _ h => by cases h
  obtain ⟨u, hu⟩ := enters_open ht.pending hopen
  exact ⟨_, u, ht.trans hu⟩

end State

end HeaderOutline
