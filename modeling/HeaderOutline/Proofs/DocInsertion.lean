import HeaderOutline.Proofs.CommentLines
import HeaderOutline.Proofs.DocTargets
/-!
# A header with its comments

Every line of a comment begins with three slashes, and what it quotes of the header are words. So
comments are not seen when the header is read again, and the targets are those of before at the
places of their lines. And none of them is to be documented once more: one that has got a comment
stands right below it, and whatever kept the others from getting one is still there, since the
comments above leave the lines below covered as they were.

Results:
* `insertFrom_again`: a second pass puts in nothing.
* `insert_conservative`: what becomes of a header.
-/
namespace HeaderOutline
open Text

/-! ## Blocks -/

namespace DocComment

variable {targets : List DocTarget} {n : Nat} {coverage : Coverage} {l : List Char}
  {ls : List (List Char)}

/-- The comments above the lines from number `n` on, which may be empty. -/
def commentsFrom (targets : List DocTarget) (n : Nat) (coverage : Coverage) :
    List (List Char) → List (List (List Char))
  | [] => []
  | l :: ls =>
    above targets n coverage l :: commentsFrom targets (n + 1) (coverage.below (trim l)) ls

theorem length_commentsFrom (targets : List DocTarget) (n : Nat) (coverage : Coverage)
    (ls : List (List Char)) : (commentsFrom targets n coverage ls).length = ls.length := by
  induction ls generalizing n coverage with
  | nil => rfl
  | cons l ls ih => rw [commentsFrom, List.length_cons, ih, List.length_cons]

theorem insertFrom_eq_weave (targets : List DocTarget) (n : Nat) (coverage : Coverage)
    (ls : List (List Char)) :
    insertFrom targets n coverage ls = weave (commentsFrom targets n coverage ls) ls := by
  induction ls generalizing n coverage with
  | nil => rfl
  | cons l ls ih => rw [insertFrom, commentsFrom, weave, ih]

/-- A comment is put above a line for its target, where the line is not covered yet. -/
theorem above_cases (targets : List DocTarget) (n : Nat) (coverage : Coverage) (l : List Char) :
    above targets n coverage l = [] ∨ coverage = .bare ∧ ∃ t ∈ targets, t.line = n ∧
      above targets n coverage l = block (l.takeWhile isBlank) t.subject := by
  unfold above
  split
  · exact .inl rfl
  · next t ht =>
    split
    · next hc =>
      exact .inr ⟨hc.1, t, List.mem_of_find?_eq_some ht, by simpa using List.find?_some ht, rfl⟩
    · exact .inl rfl

theorem above_documented (targets : List DocTarget) (n : Nat) (l : List Char) :
    above targets n .documented l = [] :=
  (above_cases targets n .documented l).resolve_right fun h => by cases h.1

/-- A block above a line belongs to a target in the line. -/
theorem target_of_commentsFrom {i : Nat} {b : List (List Char)}
    (h : (commentsFrom targets n coverage ls)[i]? = some b) (hb : b ≠ []) :
    ∃ t ∈ targets, t.line = n + i ∧ ∃ l, ls[i]? = some l ∧
      b = block (l.takeWhile isBlank) t.subject := by
  induction ls generalizing n coverage i with
  | nil => cases h
  | cons l ls ih =>
    cases i with
    | zero =>
      cases h
      obtain ⟨-, t, ht, hn, heq⟩ := (above_cases targets n coverage l).resolve_left hb
      exact ⟨t, ht, hn, l, rfl, heq⟩
    | succ i =>
      obtain ⟨t, ht, hn, hl⟩ := ih h
      exact ⟨t, ht, by omega, hl⟩

theorem plain_content {s : DocSubject} (hs : ∀ p ∈ s.params, IsPlainName p) :
    ∀ line ∈ content s, '\n' ∉ line.toList ∧ '*' ∉ line.toList := by
  intro line hline
  simp only [content, List.mem_append, List.mem_cons, List.not_mem_nil, or_false,
    List.mem_map] at hline
  rcases hline with ((rfl | rfl) | ⟨p, hp, rfl⟩) | hr
  · decide
  · decide
  · have hword : ∀ c, isNameChar c = false → c ∉ p.toList := fun c hc hm => by
      have := hs p hp c hm
      rw [hc] at this
      cases this
    simp only [String.toList_append, List.mem_append, not_or]
    exact ⟨⟨⟨by decide, hword _ (by decide)⟩, by decide⟩, ⟨by decide, hword _ (by decide)⟩,
      by decide⟩
  · split at hr
    · obtain rfl := List.mem_singleton.mp hr
      decide
    · cases hr

theorem commentLines_block {indent : List Char} {s : DocSubject}
    (hi : ∀ c ∈ indent, isBlank c = true) (hb : '\n' ∉ indent)
    (hs : ∀ p ∈ s.params, IsPlainName p) : ∀ l ∈ block indent s, IsCommentLine l := by
  intro l hl
  obtain ⟨line, hline, rfl⟩ := List.mem_map.mp hl
  obtain ⟨h1, h2⟩ := plain_content hs line hline
  refine ⟨indent, ' ' :: line.toList, ?_, hi, hb, by simpa using h1, by simpa using h2⟩
  simp only [List.append_assoc]
  rfl

/-! ## Targets and lines -/

/-- Targets for the lines from number `n` on: they quote words only and stand in lines with text. -/
structure Apt (targets : List DocTarget) (n : Nat) (ls : List (List Char)) : Prop where
  raw : RawLines ls
  names : ∀ t ∈ targets, ∀ p ∈ t.subject.params, IsPlainName p
  text : ∀ t ∈ targets, ∀ i l, ls[i]? = some l → t.line = n + i → trim l ≠ []

theorem Apt.tail (h : Apt targets n (l :: ls)) : Apt targets (n + 1) ls :=
  ⟨h.raw.tail, h.names, fun t ht i k hk hn => h.text t ht (i + 1) k hk (by omega)⟩

theorem Apt.commentLines_above (h : Apt targets n (l :: ls)) (coverage : Coverage) :
    ∀ k ∈ above targets n coverage l, IsCommentLine k := by
  rcases above_cases targets n coverage l with h0 | ⟨-, t, ht, hn, hb⟩
  · rw [h0]
    exact fun k hk => absurd hk List.not_mem_nil
  · rw [hb]
    exact commentLines_block (List.all_eq_true.mp List.all_takeWhile)
      (h.raw.indent (h.text t ht 0 l rfl hn)) (h.names t ht)

theorem Apt.commentLines (h : Apt targets n ls) (coverage : Coverage) :
    ∀ b ∈ commentsFrom targets n coverage ls, ∀ k ∈ b, IsCommentLine k := by
  induction ls generalizing n coverage with
  | nil => exact fun b hb => absurd hb List.not_mem_nil
  | cons l ls ih =>
    intro b hb
    rcases List.mem_cons.mp hb with rfl | hb
    · exact h.commentLines_above coverage
    · exact ih h.tail _ b hb

/-! ## The second pass -/

theorem below_commentLine (hc : coverage ≠ .inside) (h : IsCommentLine l) :
    coverage.below (trim l) = .documented := by
  obtain ⟨indent, rest, rfl, hi, -⟩ := h
  have ht : trim (indent ++ ("///".toList ++ rest) ++ ['\n']) =
      "///".toList ++ trimEnd (rest ++ ['\n']) := by
    have hs : isBlank '/' = false := by decide
    rw [trim, List.append_assoc, trimStart_blanks hi]
    show trimEnd (trimStart ('/' :: '/' :: '/' :: (rest ++ ['\n']))) = _
    rw [trimStart_cons hs, trimEnd_cons hs, trimEnd_cons hs, trimEnd_cons hs]
    rfl
  rw [ht, Coverage.below, if_neg (by simp), if_neg hc, after?_append]
  rfl

theorem below_commentLines {b : List (List Char)} (hb : ∀ k ∈ b, IsCommentLine k) (hne : b ≠ [])
    (hc : coverage ≠ .inside) :
    b.foldl (fun c k => c.below (trim k)) coverage = .documented := by
  induction b generalizing coverage with
  | nil => exact absurd rfl hne
  | cons k b ih =>
    rw [List.foldl_cons, below_commentLine hc (hb k List.mem_cons_self)]
    by_cases h : b = []
    · rw [h]
      rfl
    · exact ih (fun j hj => hb j (List.mem_cons_of_mem _ hj)) h (by simp)

/-- Below a line with text it does not matter whether that was documented. -/
theorem below_documented {line : List Char} (h : line ≠ []) :
    Coverage.documented.below line = Coverage.bare.below line := by
  simp [Coverage.below, h]

theorem insertFrom_untargeted {xs : List (List Char)}
    (h : ∀ t ∈ targets, t.line < n ∨ n + xs.length ≤ t.line) (coverage : Coverage)
    (ys : List (List Char)) :
    insertFrom targets n coverage (xs ++ ys) = xs.map (⟨·, false⟩) ++
      insertFrom targets (n + xs.length) (xs.foldl (fun c k => c.below (trim k)) coverage) ys := by
  induction xs generalizing n coverage with
  | nil => rfl
  | cons x xs ih =>
    rw [List.length_cons] at h
    have hx : above targets n coverage x = [] :=
      (above_cases targets n coverage x).resolve_right fun ⟨_, t, ht, hn, _⟩ => by
        have := h t ht
        omega
    have ih := ih (n := n + 1) (fun t ht => by have := h t ht; omega) (coverage.below (trim x))
    rw [List.cons_append, insertFrom, hx, ih, List.length_cons, Nat.add_right_comm n 1,
      Nat.add_assoc n xs.length 1]
    rfl

end DocComment

def DocTarget.renumber (ρ : Nat → Nat) (t : DocTarget) : DocTarget :=
  ⟨ρ t.line, t.subject⟩

theorem DocTarget.ofCallbacks_renumber (ρ : Nat → Nat) (cs : List Callback) :
    ofCallbacks (cs.map (.renumber ρ)) = (ofCallbacks cs).map (.renumber ρ) := by
  simp only [ofCallbacks, List.filterMap_map, List.map_filterMap, Option.map_map]
  rfl

namespace DocComment

variable {targets : List DocTarget} {n : Nat} {coverage : Coverage} {l : List Char}
  {ls : List (List Char)}

theorem above_renumber {ρ : Nat → Nat} (hρ : Function.Injective ρ) (targets : List DocTarget)
    (n : Nat) (coverage : Coverage) (l : List Char) :
    above (targets.map (DocTarget.renumber ρ)) (ρ n) coverage l = above targets n coverage l := by
  have hfind : (targets.map (DocTarget.renumber ρ)).find? (fun t => t.line == ρ n) =
      (targets.find? fun t => t.line == n).map (DocTarget.renumber ρ) := by
    rw [List.find?_map]
    congr 2
    funext t
    simp [DocTarget.renumber, hρ.eq_iff]
  rw [above, above, hfind]
  cases targets.find? fun t => t.line == n <;> rfl

/-- A second pass over the lines of the first one puts in nothing, when the targets have moved with
their lines. Here `all` are the comments above all lines, those before number `n` included. -/
theorem insertFrom_again (all : List (List (List Char))) {m : Nat} (coverage : Coverage)
    (h : Apt targets n ls)
    (hbefore : ∀ j < n, place all j < m)
    (hplace : ∀ k, place all (n + k) + 1 =
      m + place (commentsFrom targets n coverage ls) (k + 1)) :
    insertFrom (targets.map (DocTarget.renumber (place all))) m coverage
        ((weave (commentsFrom targets n coverage ls) ls).map (·.text)) =
      ((weave (commentsFrom targets n coverage ls) ls).map (·.text)).map (⟨·, false⟩) := by
  induction ls generalizing n m coverage with
  | nil => rfl
  | cons l ls ih =>
    have hb := h.commentLines_above coverage
    have hcases := above_cases targets n coverage l
    have habove := above_renumber (place_injective all) targets n coverage l
    simp only [commentsFrom] at hplace ⊢
    generalize above targets n coverage l = b at hb hcases habove hplace ⊢
    have hn : m + b.length = place all n := by
      have := hplace 0
      simp only [Nat.add_zero, place, place_zero] at this
      omega
    -- Between the lines before and this one there are only new lines.
    have hfree : ∀ t ∈ targets.map (DocTarget.renumber (place all)),
        t.line < m ∨ m + b.length ≤ t.line := fun t ht => by
      obtain ⟨t, -, rfl⟩ := List.mem_map.mp ht
      rcases Nat.lt_trichotomy t.line n with hlt | heq | hgt
      · exact .inl (hbefore _ hlt)
      · rw [hn, ← heq]
        exact .inr (Nat.le_refl _)
      · rw [hn]
        exact .inr (Nat.le_of_lt (place_lt all hgt))
    have ih := ih (m := m + b.length + 1) (coverage.below (trim l)) h.tail
      (fun j hj => by
        rcases Nat.lt_or_eq_of_le (Nat.le_of_lt_succ hj) with hlt | rfl
        · have := hbefore j hlt
          omega
        · omega)
      (fun k => by
        have := hplace (k + 1)
        simp only [place] at this ⊢
        rw [Nat.add_right_comm n 1 k, Nat.add_assoc n k 1, this]
        omega)
    rw [texts_weave_cons, insertFrom_untargeted hfree, List.map_append, List.map_cons, insertFrom,
      hn]
    congr 1
    rcases hcases with rfl | ⟨hbare, t, ht, hline, hblock⟩
    · rw [List.foldl_nil, habove, ← hn, ih]
      rfl
    · have hl : trim l ≠ [] := h.text t ht 0 l rfl hline
      have hne : b ≠ [] := by rw [hblock]; simp [block, content]
      subst hbare
      rw [below_commentLines hb hne (by simp), above_documented, below_documented hl, ← hn, ih]
      rfl

/-! ## Headers -/

/-- A header with a comment above every line that has a target and is not documented yet. -/
def commented (source : String) : String :=
  insert source (targetsOf source)

def comments (source : String) : List (List (List Char)) :=
  commentsFrom (targetsOf source) 1 .bare (rawLines source.toList)

theorem length_comments (source : String) :
    (comments source).length = (rawLines source.toList).length :=
  length_commentsFrom ..

theorem insertLines_targetsOf (source : String) :
    insertLines source (targetsOf source) = weave (comments source) (rawLines source.toList) :=
  insertFrom_eq_weave ..

/-- The text `out` is the text `source` with blocks of comment lines put in. -/
structure Inserts (source out : String) (blocks : List (List (List Char))) : Prop where
  /-- Above each line there is one block, which may be empty. -/
  length_eq : blocks.length = (rawLines source.toList).length
  lines_eq : rawLines out.toList = (weave blocks (rawLines source.toList)).map (·.text)
  /-- Without the new lines it is the text of before. -/
  old_eq : (((weave blocks (rawLines source.toList)).filter (!·.isNew)).map (·.text)).flatten =
    source.toList
  commentLines : ∀ b ∈ blocks, ∀ l ∈ b, IsCommentLine l
  /-- A block that is not empty documents a target in the line below, and is indented like it. -/
  target : ∀ i b, blocks[i]? = some b → b ≠ [] → ∃ t ∈ targetsOf source, t.line = i + 1 ∧
    ∃ l, (rawLines source.toList)[i]? = some l ∧ b = block (l.takeWhile isBlank) t.subject
  /-- The lines of before stand at their places. -/
  place_eq : ∀ i, (rawLines out.toList)[place blocks (i + 1) - 1]? = (rawLines source.toList)[i]?

theorem apt_targetsOf (source : String) : Apt (targetsOf source) 1 (rawLines source.toList) where
  raw := rawLines_are _
  names _ ht := (target_of_source ht).1
  text _ ht _ _ hl hn := by
    obtain ⟨x, hx, hnumber⟩ := (target_of_source ht).2
    exact SourceLine.trim_ne_nil_of_mem_ofLines (.inl rfl) hx hl (hnumber.trans hn)

theorem rawLines_commented (source : String) :
    rawLines (commented source).toList =
      (weave (comments source) (rawLines source.toList)).map (·.text) := by
  have h := apt_targetsOf source
  have hraw := rawLines_weave h.raw (length_comments source) (h.commentLines .bare)
  rw [commented, insert, String.toList_ofList, insertLines_targetsOf, List.flatMap_def,
    hraw.rawLines_flatten]

theorem inserts_commented (source : String) :
    Inserts source (commented source) (comments source) where
  length_eq := length_comments source
  lines_eq := rawLines_commented source
  old_eq := by
    rw [← insertLines_targetsOf]
    exact flatten_source source (targetsOf source)
  commentLines := (apt_targetsOf source).commentLines .bare
  target i b h hb := by
    obtain ⟨t, ht, hn, hl⟩ := target_of_commentsFrom h hb
    exact ⟨t, ht, by omega, hl⟩
  place_eq i := by
    rw [rawLines_commented, List.getElem?_map, getElem?_weave (length_comments source)]
    cases (rawLines source.toList)[i]? <;> rfl

open SourceLine in
/-- What is read of a header with its comments is what is read without them. -/
theorem ofSource_commented (source : String) :
    ofSource (commented source).toList =
      (ofSource source.toList).map (.renumber (place (comments source))) := by
  rw [ofSource, lines, rawLines_commented]
  exact ofLines_weave (.inl rfl) (length_comments source)
    ((apt_targetsOf source).commentLines .bare)

theorem length_lines_commented (source : String) :
    (lines (commented source).toList).length =
      (lines source.toList).length + (comments source).flatten.length := by
  rw [length_lines, rawLines_commented, List.length_map, length_weave (length_comments source),
    length_lines]

/-- Where the targets have moved with their lines, no comment is missing. -/
theorem commented_commented {source : String} (h : targetsOf (commented source) =
      (targetsOf source).map (.renumber (place (comments source)))) :
    commented (commented source) = commented source := by
  have hagain := insertFrom_again (m := 1) (comments source) .bare (apt_targetsOf source)
    (fun j hj => by rw [Nat.lt_one_iff.mp hj, place_zero]; exact Nat.one_pos)
    (fun k => by rw [Nat.add_comm 1 k, Nat.add_comm 1 (place ..)]; rfl)
  have hraw : insertLines (commented source) (targetsOf (commented source)) =
      (rawLines (commented source).toList).map (⟨·, false⟩) := by
    rw [insertLines, rawLines_commented, h]
    exact hagain
  rw [commented, insert, hraw, List.flatMap_map, List.flatMap_id', flatten_rawLines,
    String.ofList_toList]

/-- A header with its comments. They are blocks of comment lines, at most one above each line and
only above targets, and without them it is the header of before. What is put out for it, success,
error and counts are what they were, each line number replaced by that of the line's new place. And
no comment is missing from it. -/
theorem insert_conservative (source : String) :
    Inserts source (commented source) (comments source) ∧
      (parse (commented source)).callbacks =
        (parse source).callbacks.map (.renumber (place (comments source))) ∧
      (parse (commented source)).result = (match (parse source).result with
        | .error e => .error ⟨place (comments source) e.line⟩
        | .ok f => .ok (f.withLineCount (f.summary.lineCount + (comments source).flatten.length))) ∧
      commented (commented source) = commented source := by
  obtain ⟨hentries, herr, hok⟩ := parse_renumber (place_injective (comments source))
    (place_zero _) (ofSource_commented source)
  have hcallbacks : (parse (commented source)).callbacks =
      (parse source).callbacks.map (.renumber (place (comments source))) := by
    rw [callbacks_eq, hentries, callbacksOf_renumber, callbacks_eq]
  have htargets : targetsOf (commented source) =
      (targetsOf source).map (.renumber (place (comments source))) := by
    rw [targetsOf, hcallbacks, DocTarget.ofCallbacks_renumber, targetsOf]
  refine ⟨inserts_commented source, hcallbacks, ?_, commented_commented htargets⟩
  cases hr : (parse source).result with
  | error e => exact herr e hr
  | ok f =>
    have hcount := lineCount_of_ok hr
    have hlen := length_lines_commented source
    rw [← hcount] at hlen
    rw [hok f hr, hlen]

/-- The comment may come to lie inside one that the documented line closes. -/
example : commented "/* a\n */ int f(int n);\n" =
    "/* a\n /// <summary>\n /// </summary>\n /// <param name=\x22n\x22></param>\n" ++
      " /// <returns></returns>\n */ int f(int n);\n" := by
  decide +kernel

end DocComment

end HeaderOutline
