import HeaderOutline.Proofs.CommentLines
import HeaderOutline.Proofs.PlacedTokens
/-!
# What stripping leaves

Comments are stripped by one pass over the characters of a header, and tokens are read from the
lines by another, each with its own way to follow literals and their escapes. On what is left of a
line the two agree: what the first kept as quoted is what the second reads as literals. So a comment
marker that is left stands in a literal, and to strip the lines once more leaves them as they are.

Results:
* `commentFree_strip`: outside literals, no comment marker is left.
* `strip_of_commentFree`: then there is nothing more to strip.
* `stripMarks_eq`: what is kept as quoted is what a pass over the kept text finds quoted.
* `stripping_settles`: for every header, its lines are those of the texts that are left of it, their
  comment markers are in literal tokens, and what was kept as quoted is what is in such tokens.
-/
namespace HeaderOutline
open Text

/-! ## Comment markers -/

/-- In a text that begins in the mode, a comment marker stands only where a literal is open. -/
def CommentFree (m : QuoteMode) (cs : List Char) : Prop :=
  ∀ ⦃as y bs⦄, cs = as ++ '/' :: y :: bs → y = '/' ∨ y = '*' → m.after as ≠ .code

namespace CommentFree

variable {m : QuoteMode} {c : Char} {as bs cs : List Char}

theorem nil : CommentFree m [] := fun as _ _ h => by
  cases as <;> cases h

theorem cons (hc : m = .code → c = '/' → cs.head? ≠ some '/' ∧ cs.head? ≠ some '*')
    (h : CommentFree (m.next c) cs) : CommentFree m (c :: cs) := fun as y bs he hy => by
  cases as with
  | nil =>
    obtain ⟨rfl, rfl⟩ := List.cons.inj he
    rintro rfl
    obtain ⟨h1, h2⟩ := hc rfl rfl
    rcases hy with rfl | rfl
    · exact h1 rfl
    · exact h2 rfl
  | cons a as =>
    obtain ⟨rfl, rfl⟩ := List.cons.inj he
    exact h rfl hy

theorem quoted (hm : m ≠ .code) (h : CommentFree (m.next c) cs) : CommentFree m (c :: cs) :=
  .cons (fun hq => absurd hq hm) h

theorem tail (h : CommentFree m (c :: cs)) : CommentFree (m.next c) cs :=
  fun as _ _ he hy => @h (c :: as) _ _ (congrArg (c :: ·) he) hy

theorem front (h : CommentFree m (as ++ bs)) : CommentFree m as := fun as' y bs' he hy =>
  @h as' y (bs' ++ bs) (by rw [he]; simp) hy

theorem behind (h : CommentFree m (as ++ bs)) : CommentFree (m.after as) bs :=
  fun as' y bs' he hy => by
    rw [← after_append]
    exact h (by rw [he, List.append_assoc]) hy

theorem trim (h : CommentFree .code cs) : CommentFree .code (trim cs) := by
  have hstart : CommentFree .code (trimStart cs) := by
    have hsplit : cs.takeWhile isBlank ++ trimStart cs = cs := List.takeWhile_append_dropWhile
    have hb := (scan_plain fun c hc => isPlain_of_isBlank
      (List.all_eq_true.mp (List.all_takeWhile (l := cs) (p := isBlank)) c hc)).2
    rw [← hsplit] at h
    have := h.behind
    rwa [show QuoteMode.code.after (cs.takeWhile isBlank) = .code from hb] at this
  obtain ⟨bs, hbs⟩ := trimEnd_front (trimStart cs)
  rw [← hbs] at hstart
  exact hstart.front

end CommentFree

namespace SourceLine

/-- Outside literals, no comment marker is left of a line. -/
theorem commentFree_strip (m : Mode) (l : List Char) :
    CommentFree m.quoteMode (strip m l).1 := by
  fun_induction strip m l with
  | case1 => exact .nil
  | case2 r kept last heq ih =>
    rw [heq] at ih
    exact .cons (fun _ hc => absurd hc (by decide)) ih
  | case3 c r hno ih => exact ih
  | case4 q c r kept last heq ih =>
    rw [heq] at ih
    exact .quoted (by simp [Mode.quoteMode])
      (.quoted (by simp [Mode.quoteMode, QuoteMode.next]) (by
        simpa [Mode.quoteMode, QuoteMode.next] using ih))
  | case5 q c r hno kept last heq ih =>
    by_cases hc : c = '\\'
    · -- A backslash with nothing behind it ends the line.
      subst hc
      cases r with
      | nil =>
        rw [strip] at heq
        cases heq
        exact .quoted (by simp [Mode.quoteMode]) .nil
      | cons d r => exact absurd rfl (hno d r rfl)
    · rw [heq] at ih
      exact .quoted (by simp [Mode.quoteMode]) (by rw [quoteMode_next_quoted hc]; exact ih)
  | case6 r => exact .nil
  | case7 r ih => exact ih
  | case8 c r hno1 hno2 kept last heq ih =>
    rw [heq] at ih
    refine .cons (fun _ hc => ?_) (by rw [quoteMode_next_code]; exact ih)
    subst hc
    -- What follows a slash begins no comment, so it is kept, and is neither a slash nor a star.
    cases r with
    | nil =>
      rw [strip] at heq
      cases heq
      simp
    | cons d r =>
      have h1 : d ≠ '/' := fun hd => hno1 r rfl (by rw [hd])
      have h2 : d ≠ '*' := fun hd => hno2 r rfl (by rw [hd])
      rw [if_neg (by decide), strip] at heq
      · cases heq
        simpa using ⟨h1, h2⟩
      · rintro _ rfl _
        exact h1 rfl
      · rintro _ rfl _
        exact h1 rfl

/-- Of a text without comments all is kept. -/
theorem strip_of_commentFree {m : Mode} {cs : List Char} (hm : m ≠ .comment)
    (h : CommentFree m.quoteMode cs) : (strip m cs).1 = cs ∧ (strip m cs).2 ≠ .comment := by
  fun_induction strip m cs with
  | case1 => exact ⟨rfl, hm⟩
  | case2 | case3 => exact absurd rfl hm
  | case4 q c r kept last heq ih =>
    rw [heq] at ih
    obtain ⟨h1, h2⟩ := ih (by simp) (by simpa [Mode.quoteMode, QuoteMode.next] using h.tail.tail)
    exact ⟨by rw [← h1], h2⟩
  | case5 q c r hno kept last heq ih =>
    rw [heq] at ih
    have hnext : (if c = q then Mode.code else .quoted q) ≠ .comment := by split <;> simp
    by_cases hc : c = '\\'
    · subst hc
      cases r with
      | nil =>
        rw [strip] at heq
        cases heq
        exact ⟨rfl, hnext⟩
      | cons d r => exact absurd rfl (hno d r rfl)
    · obtain ⟨h1, h2⟩ := ih hnext (by rw [← quoteMode_next_quoted hc]; exact h.tail)
      exact ⟨by rw [← h1], h2⟩
  | case6 r => exact absurd rfl (@h [] _ _ rfl (.inl rfl))
  | case7 r ih => exact absurd rfl (@h [] _ _ rfl (.inr rfl))
  | case8 c r hno1 hno2 kept last heq ih =>
    rw [heq] at ih
    obtain ⟨h1, h2⟩ := ih (by split <;> simp) (by rw [← quoteMode_next_code]; exact h.tail)
    exact ⟨by rw [← h1], h2⟩

/-! ## The texts that are left -/

theorem newline_notMem_dropEnd {ls : List (List Char)} (h : RawLines ls) :
    ∀ l ∈ ls, '\n' ∉ dropEnd l := by
  induction h with
  | nil => exact fun _ hl => absurd hl List.not_mem_nil
  | last hb _ => simpa [dropEnd_of_noBreak hb] using hb
  | @line l ls hb _ ih =>
    refine List.forall_mem_cons.mpr ⟨fun hm => hb ?_, ih⟩
    simp only [dropEnd, List.getLast?_concat, if_true, List.dropLast_concat] at hm
    split at hm
    · exact (List.dropLast_prefix l).subset hm
    · exact hm

theorem newline_notMem_lines (cs : List Char) : ∀ l ∈ lines cs, '\n' ∉ l := fun _ hl => by
  obtain ⟨k, hk, rfl⟩ := List.mem_map.mp hl
  exact newline_notMem_dropEnd (rawLines_are cs) k hk

theorem newline_notMem_strip (m : Mode) {l : List Char} (h : '\n' ∉ l) :
    '\n' ∉ (strip m l).1 := by
  fun_induction strip m l <;> simp_all

/-- A line that is read has words on one line, and no comment. -/
theorem mem_ofLines {m : Mode} (hm : m = .code ∨ m = .comment) {n : Nat} {ls : List (List Char)}
    (hls : ∀ l ∈ ls, '\n' ∉ l) {x : SourceLine} (hx : x ∈ ofLines m n ls) :
    Solid x.text ∧ CommentFree .code x.text := by
  induction ls generalizing m n with
  | nil => cases hx
  | cons l ls ih =>
    obtain ⟨hl, hls⟩ := List.forall_mem_cons.mp hls
    have hlater := ih (n := n + 1) (nextLine_cases (strip m l).2) hls
    simp only [ofLines] at hx
    split at hx
    · exact hlater hx
    · next hne =>
      rcases List.mem_cons.mp hx with rfl | hx
      · have hfree := commentFree_strip m l
        rw [show m.quoteMode = .code by rcases hm with rfl | rfl <;> rfl] at hfree
        refine ⟨?_, hfree.trim⟩
        rcases trimStart_eq_nil_or (strip m l).1 with h0 | ⟨c, r, hr, hc⟩
        · rw [trim, h0] at hne
          exact absurd rfl hne
        · have hn : '\n' ∉ c :: r := hr ▸ fun h =>
            newline_notMem_strip m hl ((trimStart_suffix _).subset h)
          rw [trim, hr]
          exact .trimEnd hc hn
      · exact hlater hx

theorem ofLines_solid {ts : List (List Char)} (h : ∀ t ∈ ts, Solid t ∧ CommentFree .code t)
    (n : Nat) : ofLines .code n ts = ts.mapIdx fun i t => ⟨n + i, t⟩ := by
  induction ts generalizing n with
  | nil => rfl
  | cons t ts ih =>
    obtain ⟨⟨ht, hfree⟩, hts⟩ := List.forall_mem_cons.mp h
    obtain ⟨h1, h2⟩ := strip_of_commentFree (m := .code) (by simp) hfree
    have hnext : (strip .code t).2.nextLine = .code :=
      (nextLine_cases _).resolve_right fun h => by
        generalize (strip .code t).2 = m at h h2
        cases m <;> first | exact h2 rfl | cases h
    have htrim := ht.trim_append []
    rw [List.append_nil] at htrim
    obtain ⟨c, r, hcr, -⟩ := ht.head
    simp only [ofLines, h1, hnext, htrim, ih hts]
    rw [if_neg (by simp [hcr]), List.mapIdx_cons]
    simp [Nat.add_assoc, Nat.add_comm 1, Text.trimEnd, Text.trimStart]

theorem dropEnd_solid {t : List Char} (h : Solid t) : dropEnd (t ++ ['\n']) = t := by
  obtain ⟨r, c, rfl, hc⟩ := h.last
  have hr : c ≠ '\r' := by
    rintro rfl
    revert hc
    decide
  simp [dropEnd, hr]

/-- The lines of texts that are put together line by line are these texts. -/
theorem lines_intercalate {ts : List (List Char)} (h : ∀ t ∈ ts, Solid t) :
    lines (['\n'].intercalate ts) = ts := by
  induction ts with
  | nil => rfl
  | cons t ts ih =>
    obtain ⟨ht, hts⟩ := List.forall_mem_cons.mp h
    obtain ⟨c, r, rfl, -⟩ := ht.head
    cases ts with
    | nil =>
      rw [List.intercalate_singleton, lines, rawLines_of_noBreak ht.noBreak (by simp),
        List.map_singleton, dropEnd_of_noBreak ht.noBreak]
    | cons u us =>
      rw [List.intercalate_cons_cons, List.append_assoc, List.singleton_append,
        lines_line ht.noBreak, ih hts, dropEnd_solid ht]

/-! ## What is kept as quoted -/

/-- What is kept of a line, as by `strip`, each character with whether it was kept as one of a
literal, the quotes included. -/
def stripMarks : Mode → List Char → List (Char × Bool)
  | _, [] => []
  | .comment, '*' :: '/' :: r => (' ', false) :: stripMarks .code r
  | .comment, _ :: r => stripMarks .comment r
  | .quoted q, '\\' :: c :: r => ('\\', true) :: (c, true) :: stripMarks (.quoted q) r
  | .quoted q, c :: r => (c, true) :: stripMarks (if c = q then .code else .quoted q) r
  | .code, '/' :: '/' :: _ => []
  | .code, '/' :: '*' :: r => stripMarks .comment r
  | .code, c :: r => (c, isQuote c) :: stripMarks (if isQuote c then .quoted c else .code) r

/-- What is kept as quoted is what a pass over the kept text finds quoted. -/
theorem stripMarks_eq (m : Mode) (l : List Char) :
    stripMarks m l = m.quoteMode.marks (strip m l).1 := by
  fun_induction strip m l with
  | case1 => rw [stripMarks]; rfl
  | case2 r kept last heq ih =>
    rw [heq] at ih
    rw [stripMarks, ih]
    rfl
  | case3 c r hno ih =>
    rw [stripMarks, ih]
    exact hno
  | case4 q c r kept last heq ih =>
    rw [heq] at ih
    simpa [stripMarks, QuoteMode.marks, Mode.quoteMode, QuoteMode.next] using ih
  | case5 q c r hno kept last heq ih =>
    rw [heq] at ih
    have hmarks : stripMarks (.quoted q) (c :: r) =
        (c, true) :: stripMarks (if c = q then .code else .quoted q) r := by
      rw [stripMarks]
      exact hno
    rw [hmarks, ih]
    by_cases hc : c = '\\'
    · subst hc
      cases r with
      | nil =>
        rw [strip] at heq
        cases heq
        rfl
      | cons d r => exact absurd rfl (hno d r rfl)
    · rw [QuoteMode.marks, quoteMode_next_quoted hc]
      rfl
  | case6 r => rfl
  | case7 r ih =>
    rw [stripMarks, ih]
    rfl
  | case8 c r hno1 hno2 kept last heq ih =>
    rw [heq] at ih
    have hmarks : stripMarks .code (c :: r) =
        (c, isQuote c) :: stripMarks (if isQuote c then .quoted c else .code) r := by
      rw [stripMarks]
      · exact hno1
      · exact hno2
    rw [hmarks, ih, QuoteMode.marks, quoteMode_next_code]
    rfl

/-- The marked characters without the blanks at their ends. -/
def trimMarks (ms : List (Char × Bool)) : List (Char × Bool) :=
  ((ms.dropWhile (isBlank ·.1)).reverse.dropWhile (isBlank ·.1)).reverse

/-- The lines that are read, as by `ofLines`, in place of each the marks of what is kept of it. -/
def marksOfLines (m : Mode) : List (List Char) → List (List (Char × Bool))
  | [] => []
  | l :: ls =>
    let text := trimMarks (stripMarks m l)
    let later := marksOfLines (strip m l).2.nextLine ls
    if text.isEmpty then later else text :: later

theorem trimMarks_marks (cs : List Char) :
    trimMarks (QuoteMode.code.marks cs) = QuoteMode.code.marks (trim cs) := by
  have hstart : (QuoteMode.code.marks cs).dropWhile (isBlank ·.1) =
      QuoteMode.code.marks (trimStart cs) := by
    induction cs with
    | nil => rfl
    | cons c cs ih =>
      rw [QuoteMode.marks, List.dropWhile_cons]
      cases hc : isBlank c with
      | true =>
        rw [if_pos rfl, trimStart_blank hc, ← ih,
          QuoteMode.next_of_isQuote (isPlain_iff.mp (isPlain_of_isBlank hc)).2]
      | false =>
        rw [if_neg Bool.false_ne_true, trimStart_cons hc]
        rfl
  rw [trimMarks, hstart, trim]
  generalize trimStart cs = ds
  -- Both are the front of the marks that is as long as the text that is kept.
  have hfront : ((QuoteMode.code.marks ds).reverse.dropWhile (isBlank ·.1)).reverse <+:
      QuoteMode.code.marks ds := by
    rw [← List.reverse_suffix, List.reverse_reverse]
    exact List.dropWhile_suffix _
  have hmarks : QuoteMode.code.marks (trimEnd ds) <+: QuoteMode.code.marks ds := by
    obtain ⟨bs, hbs⟩ := trimEnd_front ds
    conv => rhs; rw [← hbs]
    rw [QuoteMode.marks_append]
    exact List.prefix_append ..
  have hmap : ((QuoteMode.code.marks ds).reverse.dropWhile (isBlank ·.1)).map (·.1) =
      (trimEnd ds).reverse := by
    rw [trimEnd, trimStart, List.reverse_reverse]
    conv => rhs; rw [← QuoteMode.map_fst_marks .code ds, ← List.map_reverse, List.dropWhile_map]
    rfl
  have hlen := congrArg List.length hmap
  rw [List.length_map, List.length_reverse, ← QuoteMode.map_fst_marks .code (trimEnd ds),
    List.length_map, ← List.length_reverse] at hlen
  exact (List.prefix_of_prefix_length_le hfront hmarks hlen.le).eq_of_length hlen

theorem marksOfLines_eq {m : Mode} (hm : m = .code ∨ m = .comment) (n : Nat)
    (ls : List (List Char)) :
    marksOfLines m ls = (ofLines m n ls).map (Token.literalMarks ·.text) := by
  induction ls generalizing m n with
  | nil => rfl
  | cons l ls ih =>
    have hmode : m.quoteMode = .code := by rcases hm with rfl | rfl <;> rfl
    have htext : trimMarks (stripMarks m l) = Token.literalMarks (trim (strip m l).1) := by
      rw [stripMarks_eq, hmode, trimMarks_marks, Token.literalMarks_eq]
    have hempty : (Token.literalMarks (trim (strip m l).1)).isEmpty =
        (trim (strip m l).1).isEmpty := by
      rw [← List.isEmpty_map (f := (·.1)), Token.literalMarks_eq, QuoteMode.map_fst_marks]
    simp only [marksOfLines, ofLines, htext, hempty, ih (nextLine_cases _) (n + 1)]
    split <;> rfl

end SourceLine

/-- Every comment marker of the text is in one literal token. -/
def MarkersQuoted (text : List Char) : Prop :=
  ∀ ⦃as y bs⦄, text = as ++ '/' :: y :: bs → y = '/' ∨ y = '*' →
    ∃ p ∈ Token.placed 0 text, p.token.kind = .literal ∧ p.start ≤ as.length ∧
      as.length + 2 ≤ p.stop

theorem CommentFree.markersQuoted {text : List Char} (h : CommentFree .code text) :
    MarkersQuoted text := by
  rintro as y bs rfl hy
  exact Token.exists_literal_of_after (h rfl hy) (by decide)

/-- For every header, the lines of what is left of it are these texts again. Every comment marker
that is left is in one of the literals among the tokens of its text, and what was kept as quoted is
what is in these literals. -/
theorem stripping_settles (source : List Char) :
    let texts := (SourceLine.ofSource source).map (·.text)
    SourceLine.ofSource (['\n'].intercalate texts) = texts.mapIdx (fun i t => ⟨i + 1, t⟩) ∧
      (∀ t ∈ texts, (Token.placed 0 t).map (·.token) = Token.tokens t ∧ MarkersQuoted t) ∧
      SourceLine.marksOfLines .code (lines source) = texts.map Token.literalMarks := by
  intro texts
  have htexts : ∀ t ∈ texts, Solid t ∧ CommentFree .code t := fun t ht => by
    obtain ⟨x, hx, rfl⟩ := List.mem_map.mp ht
    exact SourceLine.mem_ofLines (.inl rfl) (SourceLine.newline_notMem_lines source) hx
  refine ⟨?_, fun t ht => ⟨Token.map_token_placed 0 t, (htexts t ht).2.markersQuoted⟩, ?_⟩
  · rw [SourceLine.ofSource, SourceLine.lines_intercalate fun t ht => (htexts t ht).1,
      SourceLine.ofLines_solid htexts]
    simp only [Nat.add_comm 1]
  · rw [SourceLine.marksOfLines_eq (.inl rfl) 1, List.map_map]
    rfl

/-- A marker in a string is kept, and so are the slashes between which a comment leaves a blank. -/
example : SourceLine.ofSource "/*\na */ f(\"b//\"); // c\nx = 4 //**/ 2;\ny = 4 /*d*// 2;".toList =
    [⟨2, "f(\"b//\");".toList⟩, ⟨3, "x = 4".toList⟩, ⟨4, "y = 4  / 2;".toList⟩] := by decide

end HeaderOutline
