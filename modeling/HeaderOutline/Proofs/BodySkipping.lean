import HeaderOutline.Proofs.Bodies
import HeaderOutline.Proofs.Effects
import HeaderOutline.Proofs.Fragments
/-!
# Bodies on any lines

In the body of a function only braces and semicolons are matched, one at a time, and a fragment
without any of them takes the next line along. So a body may be laid out on lines in any way: what
the reading has before it is always an end of the body, on some lines, and then the brace that
closes it (`InBody`). A step passes the first brace or semicolon of the body or joins two of its
lines, and leaves that so with as many skipped braces on the scopes as are open; or nothing of the
body is left but text without braces, and the step takes the closing brace. What stands behind that
brace is not looked at before.

Results:
* `InBody.step`: what one step inside a body does.
* `body_skipped`: from the start of a body to the text behind its brace.
-/
namespace HeaderOutline
open Text Brace State

/-! ## Semicolons behind a brace -/

/-- What follows the semicolons in front of a text. -/
def afterSemicolons (cs : List Char) : List Char :=
  match _h : Token.next? cs with
  | some (t, rest) => if t.text = ";" then afterSemicolons rest else cs
  | none => cs
termination_by cs.length
decreasing_by exact Token.length_of_next? _h

theorem afterSemicolons_of_semicolon {cs rest : List Char} {t : Token}
    (hn : Token.next? cs = some (t, rest)) (ht : t.text = ";") :
    afterSemicolons cs = afterSemicolons rest := by
  rw [afterSemicolons]
  split
  · next h =>
    rw [hn] at h
    cases h
    rw [if_pos ht]
  · next h =>
    rw [hn] at h
    cases h

theorem afterSemicolons_of_other {cs : List Char}
    (h : ∀ t rest, Token.next? cs = some (t, rest) → t.text ≠ ";") : afterSemicolons cs = cs := by
  rw [afterSemicolons]
  split
  · next t rest hn => rw [if_neg (h t rest hn)]
  · rfl

theorem lexes_afterSemicolons (cs : List Char) :
    ∃ ts, Lexes cs ts (afterSemicolons cs) ∧ (∀ t ∈ ts, t.text = ";") ∧
      ∀ t ∈ (Token.tokens (afterSemicolons cs)).head?, t.text ≠ ";" := by
  fun_induction afterSemicolons cs with
  | case1 cs t rest hn ht ih =>
    obtain ⟨ts, hl, hts, hrest⟩ := ih
    refine ⟨t :: ts, .cons hn hl, fun u hu => ?_, hrest⟩
    rcases List.mem_cons.mp hu with rfl | hu
    · exact ht
    · exact hts u hu
  | case2 cs t rest hn ht =>
    refine ⟨[], .nil cs, by simp, fun u hu => ?_⟩
    rw [Token.tokens_of_next? hn] at hu
    cases hu
    exact ht
  | case3 cs hn =>
    refine ⟨[], .nil cs, by simp, fun u hu => ?_⟩
    rw [Token.tokens_of_next?_none hn] at hu
    cases hu

theorem ne_semicolon_of_next? {cs rest : List Char} {t : Token}
    (hn : Token.next? cs = some (t, rest)) (hc : (cs.dropWhile isSpace).head? ≠ some ';') :
    t.text ≠ ";" := by
  intro ht
  have happ := Token.append_of_next? hn
  have hsplit := List.takeWhile_append_dropWhile (p := isSpace) (l := cs)
  have hbehind := List.append_cancel_left (happ.trans hsplit.symm)
  rw [← hbehind, ht] at hc
  exact hc rfl

/-- The semicolons in front of a text that ends, or that goes on with a closing brace, stand before
that brace. -/
theorem exists_afterSemicolons (cs : List Char) {x : List Char} (hx : ∀ c ∈ x.head?, c = '\x7d') :
    ∃ gap rest, cs = gap ++ rest ∧ bracesAmong gap = [] ∧
      afterSemicolons (cs ++ x) = rest ++ x := by
  have hxs : x.dropWhile isSpace = x := by
    cases x with
    | nil => rfl
    | cons c x => rw [hx c rfl]; rfl
  induction hn : cs.length using Nat.strongRecOn generalizing cs with
  | ind n ih =>
    have stop : ((cs ++ x).dropWhile isSpace).head? ≠ some ';' →
        ∃ gap rest, cs = gap ++ rest ∧ bracesAmong gap = [] ∧
          afterSemicolons (cs ++ x) = rest ++ x := fun h =>
      ⟨[], cs, rfl, rfl, afterSemicolons_of_other fun t rest ht => ne_semicolon_of_next? ht h⟩
    have hsplit := List.takeWhile_append_dropWhile (p := isSpace) (l := cs)
    cases hd : cs.dropWhile isSpace with
    | nil =>
      refine stop ?_
      rw [List.dropWhile_append, hd, List.isEmpty_nil, if_pos rfl, hxs]
      cases x with
      | nil => simp
      | cons c x => rw [hx c rfl]; simp
    | cons c r =>
      by_cases hc : c = ';'
      · subst hc
        rw [hd] at hsplit
        have hspaces : ∀ e ∈ cs.takeWhile isSpace, isSpace e = true :=
          fun e he => List.all_eq_true.mp List.all_takeWhile e he
        have hlt : r.length < n := by
          rw [← hn, ← hsplit, List.length_append, List.length_cons]
          omega
        obtain ⟨gap, rest, rfl, hg, hrest⟩ := ih r.length hlt r rfl
        refine ⟨cs.takeWhile isSpace ++ ';' :: gap, rest, ?_, ?_, ?_⟩
        · rw [List.append_assoc]
          exact hsplit.symm
        · rw [bracesAmong_append, ← List.singleton_append, bracesAmong_append, hg,
            bracesAmong_eq_nil fun e he => ?_]
          · rfl
          · constructor <;> rintro rfl <;> exact absurd (hspaces _ he) (by decide)
        · have happ : cs ++ x = cs.takeWhile isSpace ++ ';' :: (gap ++ rest ++ x) := by
            conv_lhs => rw [← hsplit]
            simp
          have hnext := @next?_gap _ (gap ++ rest ++ x) hspaces
          rw [← happ] at hnext
          rw [afterSemicolons_of_semicolon hnext rfl, hrest]
      · refine stop ?_
        rw [List.dropWhile_append, hd]
        simpa using hc

/-- A closing brace is matched with the semicolons behind it. -/
theorem Rule.recognize?_closeBrace {u : List Char} (className : Option String) (hu : Quiet u)
    (cs : List Char) :
    recognize? className (u ++ '\x7d' :: cs) .closeBrace =
        some (.closeBrace, afterSemicolons cs) ∧
      recognize? className (u ++ '\x7d' :: cs) .openBrace = none := by
  obtain ⟨ts, spaced, hl, hts⟩ := lexes_to_delimiter hu (d := '\x7d') rfl cs
  obtain ⟨us, hl', hus, hrest⟩ := lexes_afterSemicolons cs
  have hup := fun text => upTo?_append hts (t := ⟨.mark, String.ofList ['\x7d'], spaced⟩) rfl text
    (us ++ Token.tokens (afterSemicolons cs))
  have hdrop : (us ++ Token.tokens (afterSemicolons cs)).dropWhile (·.text = ";") =
      Token.tokens (afterSemicolons cs) := by
    rw [List.dropWhile_append_of_pos fun t ht => by simp [hus t ht]]
    cases hcs : Token.tokens (afterSemicolons cs) with
    | nil => rfl
    | cons t rest =>
      rw [hcs] at hrest
      rw [List.dropWhile_cons, if_neg (by simpa using hrest t rfl)]
  simp only [recognize?, readText, throughClose?, hl.tokens, hl'.tokens, List.append_assoc,
    List.singleton_append, hup]
  exact ⟨by simp [hdrop, (hl.append hl').textOf], rfl⟩

/-! ## One step -/

section

variable {fs : ScopeStack} {u : List Char} (className : Option String) (cs : List Char)

theorem Rule.match?_opening (hu : Passed fs u) :
    match? fs.context className (u ++ '\x7b' :: cs) = some (.openBrace, .openBrace, cs) := by
  refine match?_delimiter _ hu rfl (fun _ => rfl) (recognize?_opening hu.quiet).1 fun r hr hb => ?_
  rcases hb with rfl | rfl
  · exact absurd hr (by decide)
  · exact (recognize?_opening hu.quiet).2

theorem Rule.match?_closing (hu : Passed fs u) :
    match? fs.context className (u ++ '\x7d' :: cs) =
      some (.closeBrace, .closeBrace, afterSemicolons cs) := by
  obtain ⟨hr, hn⟩ := recognize?_closeBrace className hu.quiet cs
  refine match?_delimiter _ hu rfl (fun _ => rfl) hr fun r hr hb => ?_
  rcases hb with rfl | rfl
  · exact hn
  · exact absurd hr (by decide)

theorem Rule.match?_semicolon (hu : Passed fs u) :
    match? fs.context className (u ++ ';' :: cs) = some (.statement, .statement, cs) := by
  obtain ⟨hr, ho, hc⟩ := @recognize?_semicolon u cs className hu.quiet
  refine match?_delimiter _ hu rfl (fun _ => rfl) hr fun r _ hb => ?_
  rcases hb with rfl | rfl
  · exact ho
  · exact hc

end

namespace State

variable {s : State} {line : SourceLine} {later : List SourceLine}

/-- What a brace or a semicolon in a body leaves of its line: a closing brace takes the semicolons
behind it along. -/
def behind (d : Char) (cs : List Char) : List Char :=
  if d = '\x7d' then afterSemicolons cs else cs

/-- What is taken along stands before the brace that closes the body. -/
theorem exists_behind (d : Char) (cs : List Char) {x : List Char}
    (hx : ∀ c ∈ x.head?, c = '\x7d') :
    ∃ gap rest, cs = gap ++ rest ∧ bracesAmong gap = [] ∧ behind d (cs ++ x) = rest ++ x := by
  unfold behind
  split
  · exact exists_afterSemicolons cs hx
  · exact ⟨[], cs, rfl, rfl, rfl⟩

/-- A step in a body passes the first brace or semicolon of its line, and the skipped braces are
those that are open then. -/
theorem exists_step_of_delimiter {name : String} {below : ScopeStack} {w r : List Char} {d : Char}
    {depth depth' : Nat} (later : List SourceLine) (hs : s.scopes = insideBody depth name below)
    (hline : line.text = w ++ d :: r) (hw : Quiet w) (hd : isDelimiterChar d = true)
    (hdepth : (depth' : Int) = depth + net (bracesAmong [d])) :
    ∃ es t, s.step line later = (es, .ok t) ∧ calls es = [] ∧
      t.scopes = insideBody depth' name below ∧
      t.pending = requeue line.number (behind d r) later := by
  obtain ⟨f, gs, hscopes, hopened, -, hctx⟩ := insideBody_cases depth name below
  have hpassed : Passed (insideBody depth name below) w := ⟨hw, .inr hctx⟩
  have hacts : ∃ rule k, matchIn? s.scopes line.text = some (rule, k, behind d r) ∧
      k.Does s.scopes [] (insideBody depth' name below) := by
    rw [hline, hs]
    rcases isDelimiterChar_cases hd with rfl | rfl | rfl
    · obtain rfl : depth' = depth + 1 := by simp [bracesAmong, ofChar?, value] at hdepth; omega
      refine ⟨_, _, Rule.match?_opening _ r hpassed, ?_⟩
      rw [hscopes, insideBody, List.replicate_succ, List.cons_append, ← insideBody, hscopes]
      exact Construct.does_openSkip (by simpa using hopened)
    · obtain rfl : depth = depth' + 1 := by simp [bracesAmong, ofChar?, value] at hdepth; omega
      exact ⟨_, _, Rule.match?_closing _ r hpassed, Construct.does_closeBrace rfl⟩
    · obtain rfl : depth' = depth := by simp [bracesAmong, ofChar?] at hdepth; omega
      exact ⟨_, _, Rule.match?_semicolon _ r hpassed, Construct.does_statement⟩
  obtain ⟨rule, k, hm, hk⟩ := hacts
  obtain ⟨es, t, hstep, hc, ht, hp, -⟩ := step_of_does later hm hk
  exact ⟨es, t, hstep, hc, ht, hp⟩

/-- A step in a body joins a line without braces and semicolons with the next. -/
theorem exists_step_of_quiet {name : String} {below : ScopeStack} {depth : Nat} {next : SourceLine}
    (later : List SourceLine) (hs : s.scopes = insideBody depth name below) (hq : Quiet line.text) :
    ∃ es t, s.step line (next :: later) = (es, .ok t) ∧ calls es = [] ∧
      t.scopes = insideBody depth name below ∧
      t.pending = ⟨line.number, line.text ++ ' ' :: next.text⟩ :: later := by
  obtain ⟨f, gs, -, -, -, hctx⟩ := insideBody_cases depth name below
  rw [← hs] at hctx ⊢
  obtain ⟨es, t, hstep, hc, ht, hp, -⟩ :=
    @step_of_unmatched s line next later (Rule.match?_quiet hctx hq)
  exact ⟨es, t, hstep, hc, ht, hp⟩

end State

/-! ## The lines of a body -/

def textBefore (ls : List SourceLine) (u : List Char) : List Char :=
  ls.flatMap (·.text) ++ u

@[simp] theorem textBefore_cons (l : SourceLine) (ls : List SourceLine) (u : List Char) :
    textBefore (l :: ls) u = l.text ++ textBefore ls u := by
  simp [textBefore]

/-- What goes back is in front of the other lines, without the blanks in front of it. -/
theorem exists_requeue (number : Nat) (rest : List Char) (later : List SourceLine) :
    ∃ ls, requeue number rest later = ls ++ later ∧ ∀ ms u,
      textBefore (ls ++ ms) u = trimStart rest ++ textBefore ms u := by
  unfold requeue
  cases h : trimStart rest with
  | nil => exact ⟨[], rfl, fun ms u => rfl⟩
  | cons c cs => exact ⟨[⟨number, c :: cs⟩], rfl, fun ms u => by simp⟩

theorem requeue_before (number : Nat) (rest v : List Char) (later : List SourceLine) :
    requeue number (rest ++ '\x7d' :: v) later =
      ⟨number, trimStart rest ++ '\x7d' :: v⟩ :: later := by
  rw [requeue, trimStart_append (by decide)]
  simp

/-- The text is the end of a body with `depth` braces open in it. -/
structure EndOfBody (depth : Nat) (cs : List Char) : Prop where
  tame : Tame cs
  closes : Closes depth cs

namespace EndOfBody

variable {depth : Nat} {d : Char} {w r gap cs ds : List Char}

theorem of_braces (h : EndOfBody depth cs) (ht : ∀ c ∈ ds, c = ' ' ∨ c ∈ cs)
    (hb : bracesAmong ds = bracesAmong cs) : EndOfBody depth ds := by
  refine ⟨fun c hc => ?_, ?_⟩
  · rcases ht c hc with rfl | hc
    · decide
    · exact h.tame c hc
  · rw [Closes, hb]
    exact h.closes

/-- Behind its first brace or semicolon, it is the end of the body with what is open then. -/
theorem behind (h : EndOfBody depth (w ++ d :: r)) (hw : Quiet w) :
    ∃ depth' : Nat, (depth' : Int) = depth + net (bracesAmong [d]) ∧ EndOfBody depth' r := by
  obtain ⟨ht, hc⟩ := h
  have hsplit : w ++ d :: r = (w ++ [d]) ++ r := by simp
  have hfront : bracesAmong (w ++ [d]) = bracesAmong [d] := by
    rw [bracesAmong_append, bracesAmong_quiet hw, List.nil_append]
  rw [hsplit] at hc
  have hpos := hc.1 (bracesAmong (w ++ [d])) (by
    rw [bracesAmong_append _ r]
    exact List.prefix_append ..)
  rw [hfront] at hpos
  obtain ⟨depth', hdepth⟩ := Int.eq_ofNat_of_zero_le hpos
  refine ⟨depth', hdepth.symm, ht.mono fun c hc => by simp [hc], hc.drop ?_⟩
  rw [hfront, hdepth]

theorem drop (h : EndOfBody depth (gap ++ cs ++ ds)) (hg : bracesAmong gap = []) :
    EndOfBody depth (trimStart cs ++ ds) := by
  have htrim : bracesAmong (trimStart cs) = bracesAmong cs := by
    have hblanks : bracesAmong (cs.takeWhile isBlank) = [] := bracesAmong_eq_nil fun c hc => by
      have hb := List.all_eq_true.mp List.all_takeWhile c hc
      constructor <;> rintro rfl <;> exact absurd hb (by decide)
    conv => rhs; rw [← List.takeWhile_append_dropWhile (p := isBlank) (l := cs)]
    rw [bracesAmong_append, hblanks, List.nil_append]
    rfl
  refine h.of_braces (fun c hc => .inr ?_) ?_
  · rcases List.mem_append.mp hc with hc | hc
    · simp [(trimStart_suffix cs).subset hc]
    · simp [hc]
  · simp [bracesAmong_append, hg, htrim]

theorem join (h : EndOfBody depth (cs ++ ds)) : EndOfBody depth (cs ++ ' ' :: ds) := by
  refine h.of_braces (fun c hc => ?_) ?_
  · simpa [or_comm, or_left_comm] using hc
  · simp [bracesAmong, ofChar?]

end EndOfBody

/-- In the body of a function with `depth` braces open in it, an end of the body is before the
reading, on the lines `ls` and the beginning `u` of the next, and then the brace that closes the
body. -/
structure InBody (name : String) (below : ScopeStack) (v : List Char) (later : List SourceLine)
    (s : State) (depth : Nat) (ls : List SourceLine) (n : Nat) (u : List Char) : Prop where
  scopes : s.scopes = insideBody depth name below
  pending : s.pending = ls ++ ⟨n, u ++ '\x7d' :: v⟩ :: later
  ends : EndOfBody depth (textBefore ls u)

namespace InBody

variable {name : String} {below : ScopeStack} {v : List Char} {later : List SourceLine} {s : State}
  {depth n : Nat} {ls : List SourceLine} {l : SourceLine} {u w r : List Char} {d : Char}

/-- Past a brace or a semicolon in the last line of a body. -/
theorem step_last (h : InBody name below v later s depth [] n (w ++ d :: r)) (hw : Quiet w)
    (hd : isDelimiterChar d = true) :
    ∃ es t depth' u', Reads s es t ∧ s.next? = some t ∧ calls es = [] ∧
      InBody name below v later t depth' [] n u' := by
  obtain ⟨depth', hdepth, hr⟩ := h.ends.behind hw
  obtain ⟨gap, rest, rfl, hgap, hb⟩ := exists_behind d r (x := '\x7d' :: v) (by simp)
  have hline : (⟨n, (w ++ d :: (gap ++ rest)) ++ '\x7d' :: v⟩ : SourceLine).text =
      w ++ d :: ((gap ++ rest) ++ '\x7d' :: v) := by simp
  obtain ⟨es, t, hs, hc, ht, hp⟩ := exists_step_of_delimiter later h.scopes hline hw hd hdepth
  rw [hb, requeue_before] at hp
  refine ⟨es, t, depth', trimStart rest, .one h.pending hs, next?_of_step h.pending hs, hc, ht, hp,
    ?_⟩
  rw [← List.append_nil (trimStart rest)]
  exact EndOfBody.drop (by simpa using hr) hgap

/-- Past a brace or a semicolon in another line of a body. -/
theorem step_delimiter (h : InBody name below v later s depth (l :: ls) n u)
    (hl : l.text = w ++ d :: r) (hw : Quiet w) (hd : isDelimiterChar d = true) :
    ∃ es t depth' ls', Reads s es t ∧ s.next? = some t ∧ calls es = [] ∧
      InBody name below v later t depth' ls' n u := by
  have hends := h.ends
  rw [textBefore_cons, hl, List.append_assoc, List.cons_append] at hends
  obtain ⟨depth', hdepth, hr⟩ := hends.behind hw
  obtain ⟨gap, rest, rfl, hgap, hb⟩ := exists_behind d r (x := []) (by simp)
  obtain ⟨es, t, hs, hc, ht, hp⟩ := exists_step_of_delimiter _ h.scopes hl hw hd hdepth
  obtain ⟨ls', hls', htext⟩ := exists_requeue l.number rest (ls ++ ⟨n, u ++ '\x7d' :: v⟩ :: later)
  simp only [List.append_nil] at hb
  rw [hb, hls', ← List.append_assoc] at hp
  refine ⟨es, t, depth', ls' ++ ls, .one h.pending hs, next?_of_step h.pending hs, hc, ht, hp, ?_⟩
  rw [htext]
  exact hr.drop hgap

theorem step_quiet (h : InBody name below v later s depth (l :: ls) n u) (hl : Quiet l.text) :
    ∃ es t ls' n' u', Reads s es t ∧ s.next? = some t ∧ calls es = [] ∧
      InBody name below v later t depth ls' n' u' := by
  have hends := h.ends
  rw [textBefore_cons] at hends
  cases ls with
  | nil =>
    obtain ⟨es, t, hs, hc, ht, hp⟩ := exists_step_of_quiet later h.scopes hl
    exact ⟨es, t, [], l.number, l.text ++ ' ' :: u, .one h.pending hs, next?_of_step h.pending hs,
      hc, ht, by simpa using hp, hends.join⟩
  | cons m ls =>
    obtain ⟨es, t, hs, hc, ht, hp⟩ := exists_step_of_quiet _ h.scopes hl
    refine ⟨es, t, ⟨l.number, l.text ++ ' ' :: m.text⟩ :: ls, n, u, .one h.pending hs,
      next?_of_step h.pending hs, hc, ht, hp, ?_⟩
    simpa using hends.join

/-- A step passes a brace or a semicolon of the body or joins two of its lines, unless nothing of
the body is left but text without them. -/
theorem step (h : InBody name below v later s depth ls n u) :
    ls = [] ∧ Quiet u ∨ ∃ es t depth' ls' n' u', Reads s es t ∧ s.next? = some t ∧ calls es = [] ∧
      InBody name below v later t depth' ls' n' u' := by
  have htame := h.ends.tame
  cases ls with
  | nil =>
    rcases htame.split with hu | ⟨w, d, r, rfl, hw, hd, -⟩
    · exact .inl ⟨rfl, hu⟩
    · obtain ⟨es, t, depth', u', hr, hn, hc, ht⟩ := h.step_last hw hd
      exact .inr ⟨es, t, depth', [], n, u', hr, hn, hc, ht⟩
  | cons l ls =>
    refine .inr ?_
    have hl : Tame l.text := htame.mono fun c hc => by simp [hc]
    rcases hl.split with hq | ⟨w, d, r, hl, hw, hd, -⟩
    · obtain ⟨es, t, ls', n', u', hr, hn, hc, ht⟩ := h.step_quiet hq
      exact ⟨es, t, depth, ls', n', u', hr, hn, hc, ht⟩
    · obtain ⟨es, t, depth', ls', hr, hn, hc, ht⟩ := h.step_delimiter hl hw hd
      exact ⟨es, t, depth', ls', n, u, hr, hn, hc, ht⟩

/-- The reading comes to the brace that closes the body, and up to it there is nothing but skipped
braces upon the frame of the function. -/
theorem reads (h : InBody name below v later s depth ls n u) :
    ∃ es t n' w, Reads s es t ∧ calls es = [] ∧
      (∀ es₁ a es₂, Reads s es₁ a → Reads a es₂ t → ∃ k, a.scopes = insideBody k name below) ∧
      Quiet w ∧ InBody name below v later t 0 [] n' w := by
  -- The induction is on what is before the reading, which each step makes lighter.
  induction hw : weight s.pending using Nat.strongRecOn generalizing s depth ls n u with
  | ind m ih =>
    rcases h.step with ⟨rfl, hu⟩ | ⟨es, t, depth', ls', n', u', hr, hn, hc, ht⟩
    · obtain rfl := h.ends.closes.eq_zero (bracesAmong_quiet hu)
      refine ⟨[], s, n, u, .refl s, rfl, fun es₁ a es₂ h₁ h₂ => ⟨0, ?_⟩, hu, h⟩
      obtain rfl : s = a := by
        rcases weight_of_reads h₁ with rfl | h₁
        · rfl
        · rcases weight_of_reads h₂ with rfl | h₂
          · rfl
          · omega
      exact h.scopes
    · obtain ⟨line, more, fs, hp, hs⟩ := exists_step_of_next? hn
      have hlt : weight t.pending < m := by
        rw [← hw, hp]
        exact weight_step (by rw [hs])
      obtain ⟨es', t', k, w, hr', hc', hbetween, hq, ht'⟩ := ih _ hlt ht rfl
      refine ⟨es ++ es', t', k, w, hr.trans hr', by rw [calls_append, hc, hc']; rfl,
        fun es₁ a es₂ h₁ h₂ => ?_, hq, ht'⟩
      cases h₁ with
      | refl => exact ⟨depth, h.scopes⟩
      | next hp' hs' h₁ =>
        obtain rfl := Option.some.inj (hn.symm.trans (next?_of_step hp' hs'))
        exact hbetween _ a es₂ h₁ h₂

end InBody

/-- From anywhere in the body of a function, on whatever lines, the reading comes to the brace that
closes the body. Up to it nothing is reported, and the frame of the function and those below it
stay; the brace takes that frame away, and the text behind the brace and its semicolons comes
next. -/
theorem body_skipped {s : State} {name : String} {below : ScopeStack} {ls later : List SourceLine}
    {n : Nat} {u v : List Char} (hs : s.scopes = .functionBody name true :: below)
    (hp : s.pending = ls ++ ⟨n, u ++ '\x7d' :: v⟩ :: later) (ht : Tame (textBefore ls u))
    (hb : Balanced (bracesAmong (textBefore ls u))) :
    ∃ es t line es' r, Reads s es t ∧ calls es = [] ∧
      (∀ es₁ a es₂, Reads s es₁ a → Reads a es₂ t → ∃ k, a.scopes = insideBody k name below) ∧
      t.scopes = .functionBody name true :: below ∧ t.pending = line :: later ∧
      (∃ w, Quiet w ∧ line.text = w ++ '\x7d' :: v) ∧ t.matched? = some .closeBrace ∧
      t.step line later = (es', .ok r) ∧ calls es' = [] ∧ r.scopes = below ∧
      r.pending = requeue line.number (afterSemicolons v) later := by
  have hstart : InBody name below v later s 0 ls n u :=
    ⟨hs, hp, ht, fun us hus => by simpa using hb.1 us hus, by simpa using hb.2⟩
  obtain ⟨es, t, n', w, hr, hc, hbetween, hw, htlast⟩ := hstart.reads
  have hpassed : Passed t.scopes w := ⟨hw, .inr (by rw [htlast.scopes]; rfl)⟩
  have hm := Rule.match?_closing (t.scopes.topClass?.map (·.name)) v hpassed
  have hk : Construct.closeBrace.Does t.scopes [] below := by
    rw [htlast.scopes]
    exact Construct.does_closeBrace rfl
  obtain ⟨es', r, hstep, hc', hrs, hrp, -⟩ :=
    @step_of_does t ⟨n', w ++ '\x7d' :: v⟩ _ _ _ _ _ later hm hk
  refine ⟨es, t, _, es', r, hr, hc, hbetween, htlast.scopes, htlast.pending, ⟨w, hw, rfl⟩, ?_,
    hstep, hc', hrs, hrp⟩
  rw [matched?_eq htlast.pending, matchIn?, hm]
  rfl

theorem body_skipped_split :
    let s : State := { State.start [⟨2, "if (x) \x7b y()".toList⟩, ⟨3, "; \x7d ; z() ;".toList⟩,
      ⟨4, "\x7d ; int w();".toList⟩] with
        scopes := [.functionBody "f" true, .nameSpace "n" true] }
    ∃ es r, Reads s es r ∧ calls es = [] ∧ r.scopes = [.nameSpace "n" true] ∧
      r.pending.map (·.text) = ["int w();".toList] := by
  intro s
  obtain ⟨es, t, line, es', r, hr, hc, -, -, hp, -, -, hs, hc', hrs, hrp⟩ :=
    @body_skipped s "f" [.nameSpace "n" true] [⟨2, "if (x) \x7b y()".toList⟩,
      ⟨3, "; \x7d ; z() ;".toList⟩] [] 4 [] " ; int w();".toList rfl rfl
      (by unfold Tame; decide) (by decide)
  have hv : afterSemicolons " ; int w();".toList = " int w();".toList :=
    (@afterSemicolons_of_semicolon _ _ ⟨.mark, ";", true⟩ (by decide) rfl).trans
      (afterSemicolons_of_other (fun t rest h => ne_semicolon_of_next? h (by decide)))
  refine ⟨es ++ es', r, hr.trans (.one hp hs), by rw [calls_append, hc, hc']; rfl, hrs, ?_⟩
  rw [hrp, hv]
  rfl

end HeaderOutline
