import HeaderOutline.Proofs.BraceScan
import HeaderOutline.Proofs.LineTexts
import HeaderOutline.Proofs.Renumbering
/-!
# Lines of texts put together

A text, a line feed and another text: the lines are those of the first text and, under higher
numbers, those of the second, unless the first one ends inside a block comment. What the line feed
changes of the first text is trimmed: a carriage return at its end now belongs to the end of the
line.

Results: `ofLines_append`, `ofSource_append`.
-/
namespace HeaderOutline
open Text

namespace Text

theorem rawLines_append (as bs : List Char) :
    rawLines (as ++ '\n' :: bs) = rawLines (as ++ ['\n']) ++ rawLines bs := by
  induction as with
  | nil => simp [rawLines]
  | cons c as ih =>
    rw [List.cons_append, List.cons_append, rawLines, rawLines, ih]
    split
    · rfl
    · cases h : rawLines (as ++ ['\n']) with
      | nil =>
        have hf := flatten_rawLines (as ++ ['\n'])
        rw [h] at hf
        simp at hf
      | cons l ls => rfl

theorem lines_append (as bs : List Char) :
    lines (as ++ '\n' :: bs) = lines (as ++ ['\n']) ++ lines bs := by
  rw [lines, rawLines_append, List.map_append, lines, lines]

/-- A text with a line feed at its end has a line for each line feed. -/
theorem length_lines_newline (as : List Char) :
    (lines (as ++ ['\n'])).length = as.count '\n' + 1 := by
  rw [length_lines]
  induction as with
  | nil => rfl
  | cons c as ih =>
    rw [List.cons_append, rawLines]
    split
    · next h => rw [h, List.length_cons, ih, List.count_cons_self]
    · next h =>
      rw [List.count_cons_of_ne h]
      cases hr : rawLines (as ++ ['\n']) with
      | nil => rw [hr] at ih; simp at ih
      | cons l ls => rw [hr] at ih; exact ih

end Text

namespace SourceLine

/-! ## Modes -/

/-- The mode in which a line begins that follows some lines. -/
def Mode.afterLines (m : Mode) (ls : List (List Char)) : Mode :=
  ls.foldl (fun m l => (strip m l).2.nextLine) m

def EndsInComment (source : List Char) : Prop :=
  Mode.code.afterLines (lines source) = .comment

instance (source : List Char) : Decidable (EndsInComment source) :=
  inferInstanceAs (Decidable (_ = _))

theorem nextLine_cases (m : Mode) : m.nextLine = .code ∨ m.nextLine = .comment := by
  cases m with
  | code | quoted => exact .inl rfl
  | comment => exact .inr rfl

theorem afterLines_cases {m : Mode} (h : m = .code ∨ m = .comment) (ls : List (List Char)) :
    m.afterLines ls = .code ∨ m.afterLines ls = .comment := by
  induction ls generalizing m with
  | nil => exact h
  | cons l ls ih => exact ih (nextLine_cases _)

/-! ## Lines that follow one another -/

/-- Lines that follow others go on with their mode and their number. -/
theorem ofLines_append (m : Mode) (n : Nat) (ls ms : List (List Char)) :
    ofLines m n (ls ++ ms) = ofLines m n ls ++ ofLines (m.afterLines ls) (n + ls.length) ms := by
  induction ls generalizing m n with
  | nil => rfl
  | cons l ls ih =>
    have hn : n + (l :: ls).length = n + 1 + ls.length := by simp only [List.length_cons]; omega
    rw [hn, List.cons_append]
    simp only [ofLines, ih]
    split <;> rfl

theorem ofLines_add (m : Mode) (n k : Nat) (ls : List (List Char)) :
    ofLines m (n + k) ls = (ofLines m n ls).map (.renumber (· + k)) := by
  induction ls generalizing m n with
  | nil => rfl
  | cons l ls ih =>
    simp only [ofLines, show n + k + 1 = n + 1 + k by omega, ih]
    split <;> rfl

theorem number_of_mem_ofLines {m : Mode} {n : Nat} {ls : List (List Char)} {l : SourceLine}
    (h : l ∈ ofLines m n ls) : n ≤ l.number ∧ l.number < n + ls.length := by
  induction ls generalizing m n with
  | nil => cases h
  | cons k ls ih =>
    simp only [ofLines] at h
    have hlater : ∀ {m'}, l ∈ ofLines m' (n + 1) ls →
        n ≤ l.number ∧ l.number < n + (k :: ls).length := fun hm => by
      obtain ⟨h1, h2⟩ := ih hm
      rw [List.length_cons]
      omega
    split at h
    · exact hlater h
    · rcases List.mem_cons.mp h with rfl | h
      · exact ⟨Nat.le_refl _, by simp⟩
      · exact hlater h

/-! ## The end of a line -/

/-- A carriage return behind a line is kept at most as a blank behind it. -/
theorem strip_append_return {m : Mode} (hq : ∀ q, m = .quoted q → isQuote q = true)
    (cs : List Char) : ∃ bs, (bs = [] ∨ bs = ['\r']) ∧
      strip m (cs ++ ['\r']) = ((strip m cs).1 ++ bs, (strip m cs).2) := by
  fun_induction strip m cs with
  | case1 m =>
    cases m with
    | comment => exact ⟨[], .inl rfl, rfl⟩
    | code => exact ⟨['\r'], .inr rfl, rfl⟩
    | quoted q =>
      have hr : '\r' ≠ q := by rintro rfl; exact absurd (hq _ rfl) (by decide)
      exact ⟨['\r'], .inr rfl, by simp [strip, hr]⟩
  | case2 r kept last heq ih =>
    obtain ⟨bs, hb, hs⟩ := ih (fun _ h => by cases h)
    rw [heq] at hs
    exact ⟨bs, hb, by simp [strip, hs]⟩
  | case3 c r hno ih =>
    obtain ⟨bs, hb, hs⟩ := ih (fun _ h => by cases h)
    refine ⟨bs, hb, ?_⟩
    rw [List.cons_append, strip]
    · exact hs
    · intro r' hc hr
      cases r with
      | nil => simp at hr
      | cons d r => exact hno r hc (by rw [(List.cons.inj hr).1])
  | case4 q c r kept last heq ih =>
    obtain ⟨bs, hb, hs⟩ := ih hq
    rw [heq] at hs
    exact ⟨bs, hb, by simp [strip, hs]⟩
  | case5 q c r hno kept last heq ih =>
    by_cases hc : c = '\\' ∧ r = []
    · -- The backslash now protects the carriage return, and the literal stays open either way.
      obtain ⟨rfl, rfl⟩ := hc
      have hr : '\\' ≠ q := by rintro rfl; exact absurd (hq _ rfl) (by decide)
      rw [if_neg hr, strip] at heq
      cases heq
      exact ⟨['\r'], .inr rfl, rfl⟩
    · have hq' : ∀ q', (if c = q then Mode.code else .quoted q) = .quoted q' → isQuote q' = true :=
        fun q' h => by split at h <;> cases h; exact hq q rfl
      obtain ⟨bs, hb, hs⟩ := ih hq'
      rw [heq] at hs
      refine ⟨bs, hb, ?_⟩
      rw [List.cons_append, strip, hs]
      · rfl
      · intro d r' h1 h2
        cases r with
        | nil => exact hc ⟨h1, rfl⟩
        | cons e r => exact hno e r h1 rfl
  | case6 r => exact ⟨[], .inl rfl, rfl⟩
  | case7 r ih =>
    obtain ⟨bs, hb, hs⟩ := ih (fun _ h => by cases h)
    exact ⟨bs, hb, by simpa [strip] using hs⟩
  | case8 c r hno1 hno2 kept last heq ih =>
    have hq' : ∀ q, (if isQuote c then Mode.quoted c else .code) = .quoted q → isQuote q = true :=
      fun q h => by split at h <;> cases h; assumption
    obtain ⟨bs, hb, hs⟩ := ih hq'
    rw [heq] at hs
    refine ⟨bs, hb, ?_⟩
    rw [List.cons_append, strip, hs]
    · rfl
    · intro r' h1 h2
      cases r with
      | nil => simp at h2
      | cons d r => exact hno1 r h1 (by rw [(List.cons.inj h2).1])
    · intro r' h1 h2
      cases r with
      | nil => simp at h2
      | cons d r => exact hno2 r h1 (by rw [(List.cons.inj h2).1])

theorem trim_append_return {cs bs : List Char} (h : bs = [] ∨ bs = ['\r']) :
    trim (cs ++ bs) = trim cs := by
  rcases h with rfl | rfl
  · rw [List.append_nil]
  · rw [← trimStart_trimEnd, trimEnd_append_blank (by decide), trimStart_trimEnd]

/-- A line is stripped and trimmed alike with a line feed at its end and without. -/
theorem strip_dropEnd {m : Mode} (hm : m = .code ∨ m = .comment) {l : List Char} (h : '\n' ∉ l) :
    trim (strip m (dropEnd (l ++ ['\n']))).1 = trim (strip m l).1 ∧
      (strip m (dropEnd (l ++ ['\n']))).2 = (strip m l).2 := by
  simp only [dropEnd, List.getLast?_concat, if_true, List.dropLast_concat]
  split
  · next hr =>
    obtain ⟨r, rfl⟩ := List.getLast?_eq_some_iff.mp hr
    obtain ⟨bs, hb, hs⟩ := strip_append_return (m := m)
      (fun q hq => by rcases hm with rfl | rfl <;> cases hq) r
    rw [List.dropLast_concat, hs]
    exact ⟨(trim_append_return hb).symm, rfl⟩
  · exact ⟨rfl, rfl⟩

/-- A line feed at the end of a text makes no difference to its lines. -/
theorem ofLines_newline {m : Mode} (hm : m = .code ∨ m = .comment) (n : Nat) (cs : List Char) :
    ofLines m n (lines (cs ++ ['\n'])) = ofLines m n (lines cs) ∧
      m.afterLines (lines (cs ++ ['\n'])) = m.afterLines (lines cs) := by
  generalize hk : cs.length = k
  induction k using Nat.strongRecOn generalizing m n cs with
  | ind k ih =>
    have hb := lineHead_noBreak cs
    have hcs := lineHead_append_lineRest cs
    rcases lineRest_cases cs with hr | ⟨r, hr⟩
    · rw [hr, List.append_nil] at hcs
      rw [hcs] at hb
      cases hc : cs with
      | nil => rcases hm with rfl | rfl <;> exact ⟨rfl, rfl⟩
      | cons c cs' =>
        rw [← hc]
        have h1 : lines (cs ++ ['\n']) = [dropEnd (cs ++ ['\n'])] := by
          rw [lines, rawLines_append_break hb]
          rfl
        have h2 : lines cs = [cs] := by
          rw [lines, rawLines_of_noBreak hb (by rw [hc]; simp), List.map_singleton,
            dropEnd_of_noBreak hb]
        obtain ⟨h3, h4⟩ := strip_dropEnd hm hb
        rw [h1, h2]
        simp only [ofLines, Mode.afterLines, List.foldl_cons, List.foldl_nil, h3, h4, and_self]
    · rw [hr] at hcs
      have hlt : r.length < k := by
        have := congrArg List.length hcs
        rw [List.length_append, List.length_cons] at this
        omega
      have h1 : ∀ xs, lines (lineHead cs ++ '\n' :: xs) =
          dropEnd (lineHead cs ++ ['\n']) :: lines xs := fun xs => by
        rw [lines, rawLines_append_break hb]
        rfl
      obtain ⟨h2, h3⟩ := ih _ hlt (nextLine_cases (strip m (dropEnd (lineHead cs ++ ['\n']))).2)
        (n + 1) r rfl
      rw [← hcs, List.append_assoc, List.cons_append, h1, h1]
      exact ⟨by simp only [ofLines, h2], h3⟩
/-- The lines of two texts with a line feed between them. -/
theorem ofSource_append {as : List Char} (h : ¬ EndsInComment as) (bs : List Char) :
    ofSource (as ++ '\n' :: bs) =
      ofSource as ++ (ofSource bs).map (.renumber (· + (as.count '\n' + 1))) := by
  obtain ⟨h1, h2⟩ := ofLines_newline (.inl rfl) 1 as
  have hc : Mode.code.afterLines (lines as) = .code :=
    (afterLines_cases (.inl rfl) _).resolve_right h
  rw [ofSource, lines_append, ofLines_append, h1, h2, hc, length_lines_newline, ofLines_add]
  rfl

end SourceLine

end HeaderOutline
