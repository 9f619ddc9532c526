import HeaderOutline.Proofs.Leads
import HeaderOutline.Proofs.Recognition
/-!
# Braces and semicolons

Anywhere a brace or a semicolon in front is matched as such. In function bodies and skipped braces
also the text before it is passed over, however it is parted into lines, as long as nothing in it is
quoted and no `#` stands there.

Results:
* `lexes_to_delimiter`: the tokens through the first delimiter.
* `leads_opening`, `leads_closing`, `leads_semicolon`: a delimiter in front.
* `Leads.passing`: the text before a delimiter in a body.
-/
namespace HeaderOutline
open Text Declaration

def isDelimiterChar (c : Char) : Bool :=
  c == '\x7b' || c == '\x7d' || c == ';'

theorem isDelimiterChar_cases {d : Char} (h : isDelimiterChar d = true) :
    d = '\x7b' ∨ d = '\x7d' ∨ d = ';' := by
  simpa [isDelimiterChar, or_assoc] using h

/-- Nothing is quoted, and there is no `#`. -/
def Tame (cs : List Char) : Prop :=
  ∀ c ∈ cs, isQuote c = false ∧ c ≠ '#'

/-- There is no brace and no semicolon either. -/
def Quiet (cs : List Char) : Prop :=
  Tame cs ∧ ∀ c ∈ cs, isDelimiterChar c = false

theorem Tame.mono {cs ds : List Char} (h : Tame ds) (hs : ∀ c ∈ cs, c ∈ ds) : Tame cs :=
  fun c hc => h c (hs c hc)

theorem Quiet.mono {cs ds : List Char} (h : Quiet ds) (hs : ∀ c ∈ cs, c ∈ ds) : Quiet cs :=
  ⟨h.1.mono hs, fun c hc => h.2 c (hs c hc)⟩

/-! ## Tokens through a delimiter -/

/-- A token that begins before a delimiter ends before it. -/
theorem lexeme_before {c d : Char} {u cs : List Char} (hq : isQuote c = false)
    (hd : isDelimiterChar d = true) :
    ∃ kind text v, Token.lexeme c (u ++ d :: cs) = (kind, c :: text, v ++ d :: cs) ∧ v <:+ u := by
  have hstops : isNameChar d = false ∧ d ≠ ':' ∧ d ≠ '.' := by
    rcases isDelimiterChar_cases hd with rfl | rfl | rfl <;> decide
  have hx : Token.lexeme c (u ++ d :: cs) = _ :=
    lexeme_append hstops.1 hstops.2 fun h => by rw [hq] at h; cases h
  have happend := Token.append_lexeme c u
  obtain ⟨e, text, htext⟩ := List.exists_cons_of_ne_nil (Token.lexeme_ne_nil c u)
  rw [htext] at happend hx
  obtain ⟨rfl, hu⟩ := List.cons.inj happend
  exact ⟨_, _, _, hx, _, hu⟩

theorem isDelimiter_of_head {c : Char} (hc : isDelimiterChar c = false) (kind : TokenKind)
    (text : List Char) (spaced : Bool) :
    Rule.isDelimiter ⟨kind, String.ofList (c :: text), spaced⟩ = false := by
  have hne : ∀ d, isDelimiterChar d = true → String.ofList (c :: text) ≠ String.ofList [d] := by
    intro d hd he
    have hl := congrArg String.toList he
    simp only [String.toList_ofList] at hl
    rw [(List.cons.inj hl).1, hd] at hc
    cases hc
  simp only [Rule.isDelimiter, Bool.or_eq_false_iff, beq_eq_false_iff_ne]
  exact ⟨⟨hne '\x7b' (by decide), hne '\x7d' (by decide)⟩, hne ';' (by decide)⟩

/-- The tokens of a text through its first delimiter. -/
theorem lexes_to_delimiter {u : List Char} (hu : Quiet u) {d : Char} (hd : isDelimiterChar d = true)
    (cs : List Char) : ∃ ts spaced, Lexes (u ++ d :: cs)
      (ts ++ [⟨.mark, String.ofList [d], spaced⟩]) cs ∧ ∀ t ∈ ts, Rule.isDelimiter t = false := by
  have hdx : Token.lexeme d cs = (.mark, [d], cs) := by
    unfold Token.lexeme
    rcases isDelimiterChar_cases hd with rfl | rfl | rfl <;> rfl
  have hds : isSpace d = false := by
    rcases isDelimiterChar_cases hd with rfl | rfl | rfl <;> decide
  induction hn : u.length using Nat.strongRecOn generalizing u with
  | ind n ih =>
    cases hw : u.dropWhile isSpace with
    | nil =>
      -- Only spaces stand in front.
      have hx : (u ++ d :: cs).dropWhile isSpace = d :: cs := by
        simp [List.dropWhile_append, hw, hds]
      refine ⟨[], (u ++ d :: cs).head?.any isSpace, .cons ?_ (.nil cs), fun t ht => by cases ht⟩
      simp only [Token.next?, hx, hdx]
    | cons c u' =>
      have hsuf : c :: u' <:+ u := hw ▸ List.dropWhile_suffix isSpace
      have hcu : c ∈ u := hsuf.subset List.mem_cons_self
      obtain ⟨kind, text, v, hx, hv⟩ := @lexeme_before c d u' cs (hu.1 c hcu).1 hd
      have hspaces : (u ++ d :: cs).dropWhile isSpace = c :: (u' ++ d :: cs) := by
        simp [List.dropWhile_append, hw]
      have hvu : v <:+ u := hv.trans ((List.suffix_cons ..).trans hsuf)
      have hlt : v.length < n := by
        have h1 := hv.length_le
        have h2 := hsuf.length_le
        simp only [List.length_cons] at h2
        omega
      obtain ⟨ts, spaced, hl, hts⟩ := ih v.length hlt (hu.mono fun e he => hvu.subset he) rfl
      refine ⟨⟨kind, String.ofList (c :: text), (u ++ d :: cs).head?.any isSpace⟩ :: ts, spaced,
        .cons ?_ hl, fun t ht => ?_⟩
      · simp only [Token.next?, hspaces, hx]
      · rcases List.mem_cons.mp ht with rfl | ht
        · exact isDelimiter_of_head (hu.2 c hcu) ..
        · exact hts t ht

/-! ## Rules for delimiters -/

namespace Rule

theorem upTo?_append {ts : List Token} (hts : ∀ t ∈ ts, isDelimiter t = false) {t : Token}
    (ht : isDelimiter t = true) (text : String) (rest : List Token) :
    upTo? text (ts ++ t :: rest) = if t.text = text then some ((), rest) else none := by
  have hd : (ts ++ t :: rest).dropWhile (fun t => !isDelimiter t) = t :: rest := by
    rw [List.dropWhile_append_of_pos fun u hu => by simp [hts u hu], List.dropWhile_cons,
      if_neg (by simp [ht])]
  rw [upTo?, hd, skip?]
  split <;> rfl

variable {u cs : List Char} {className : Option String}

theorem recognize?_opening (hu : Quiet u) :
    recognize? className (u ++ '\x7b' :: cs) .openBrace = some (.openBrace, cs) ∧
      recognize? className (u ++ '\x7b' :: cs) .closeBrace = none := by
  obtain ⟨ts, spaced, hl, hts⟩ := lexes_to_delimiter hu (d := '\x7b') rfl cs
  have hup := fun text => upTo?_append hts (t := ⟨.mark, String.ofList ['\x7b'], spaced⟩) rfl text
    (Token.tokens cs)
  simp only [recognize?, readText, throughClose?, hl.tokens, List.append_assoc,
    List.singleton_append, hup]
  exact ⟨by simp [hl.textOf], rfl⟩

theorem recognize?_semicolon (hu : Quiet u) :
    recognize? className (u ++ ';' :: cs) .statement = some (.statement, cs) ∧
      recognize? className (u ++ ';' :: cs) .openBrace = none ∧
      recognize? className (u ++ ';' :: cs) .closeBrace = none := by
  obtain ⟨ts, spaced, hl, hts⟩ := lexes_to_delimiter hu (d := ';') rfl cs
  have hup := fun text => upTo?_append hts (t := ⟨.mark, String.ofList [';'], spaced⟩) rfl text
    (Token.tokens cs)
  simp only [recognize?, readText, throughClose?, hl.tokens, List.append_assoc,
    List.singleton_append, hup]
  exact ⟨by simp [hl.textOf], rfl, rfl⟩

end Rule

/-! ## Semicolons behind a closing brace -/

/-- Semicolons on one line, with spaces in front of each. -/
inductive Semicolons : List Char → Prop
  | nil : Semicolons []
  | cons {gap cs : List Char} : (∀ c ∈ gap, isSpace c = true ∧ c ≠ '\n') → Semicolons cs →
      Semicolons (gap ++ ';' :: cs)

/-- The text does not go on with a semicolon on its first line. -/
def NoSemicolon (cs : List Char) : Prop :=
  ∀ t ∈ (Token.tokens (lineEnd cs)).head?, t.text ≠ ";"

theorem next?_gap {gap cs : List Char} (h : ∀ c ∈ gap, isSpace c = true) :
    Token.next? (gap ++ ';' :: cs) =
      some (⟨.mark, ";", (gap ++ ';' :: cs).head?.any isSpace⟩, cs) := by
  have hx : (gap ++ ';' :: cs).dropWhile isSpace = ';' :: cs := by
    rw [List.dropWhile_append_of_pos h]
    rfl
  simp only [Token.next?, hx]
  rfl

theorem lexes_semicolons {gap : List Char} (h : Semicolons gap) (cs : List Char) :
    ∃ ts, Lexes (gap ++ cs) ts cs ∧ ∀ t ∈ ts, t.text = ";" := by
  induction h with
  | nil => exact ⟨[], .nil cs, fun t ht => by cases ht⟩
  | @cons gap' rest hgap _ ih =>
    obtain ⟨ts, hl, hts⟩ := ih
    have hx : Token.next? (gap' ++ ';' :: rest ++ cs) =
        some (⟨.mark, ";", (gap' ++ ';' :: (rest ++ cs)).head?.any isSpace⟩, rest ++ cs) := by
      rw [List.append_assoc]
      exact next?_gap fun c hc => (hgap c hc).1
    refine ⟨_, .cons hx hl, fun t ht => ?_⟩
    rcases List.mem_cons.mp ht with rfl | ht
    · rfl
    · exact hts t ht

theorem Semicolons.mem {gap : List Char} (h : Semicolons gap) {c : Char} (hc : c ∈ gap) :
    c = ';' ∨ isSpace c = true ∧ c ≠ '\n' := by
  induction h with
  | nil => cases hc
  | cons hgap _ ih =>
    rcases List.mem_append.mp hc with hc | hc
    · exact .inr (hgap c hc)
    · rcases List.mem_cons.mp hc with rfl | hc
      · exact .inl rfl
      · exact ih hc

theorem Semicolons.last {gap : List Char} (h : Semicolons gap) :
    gap = [] ∨ ∃ r, gap = r ++ [';'] := by
  induction h with
  | nil => exact .inl rfl
  | cons hgap _ ih =>
    rename_i gap rest _
    rcases ih with rfl | ⟨r, rfl⟩
    · exact .inr ⟨gap, rfl⟩
    · exact .inr ⟨gap ++ ';' :: r, by simp⟩

theorem Rule.recognize?_closing {u gap cs : List Char} {className : Option String} (hu : Quiet u)
    (hg : Semicolons gap) (hn : ∀ t ∈ (Token.tokens cs).head?, t.text ≠ ";") :
    recognize? className (u ++ '\x7d' :: (gap ++ cs)) .closeBrace = some (.closeBrace, cs) ∧
      recognize? className (u ++ '\x7d' :: (gap ++ cs)) .openBrace = none := by
  obtain ⟨ts, spaced, hl, hts⟩ := lexes_to_delimiter hu (d := '\x7d') rfl (gap ++ cs)
  obtain ⟨us, hl', hus⟩ := lexes_semicolons hg cs
  have hup := fun text => upTo?_append hts (t := ⟨.mark, String.ofList ['\x7d'], spaced⟩) rfl text
    (us ++ Token.tokens cs)
  have hdrop : (us ++ Token.tokens cs).dropWhile (·.text = ";") = Token.tokens cs := by
    rw [List.dropWhile_append_of_pos fun t ht => by simp [hus t ht]]
    cases hcs : Token.tokens cs with
    | nil => rfl
    | cons t rest =>
      rw [hcs] at hn
      rw [List.dropWhile_cons, if_neg (by simpa using hn t rfl)]
  simp only [recognize?, readText, throughClose?, hl.tokens, hl'.tokens, List.append_assoc,
    List.singleton_append, hup]
  refine ⟨?_, rfl⟩
  have hx := (hl.append hl').textOf
  simp [hdrop, hx]

/-! ## Fragments with a delimiter -/

/-- The text may stand before a delimiter that is to be matched: nothing, or anything quiet in a
body. -/
structure Passed (fs : ScopeStack) (u : List Char) : Prop where
  quiet : Quiet u
  body : u = [] ∨ fs.context.declares = false

theorem Passed.nil (fs : ScopeStack) : Passed fs [] :=
  ⟨⟨fun _ hc => absurd hc List.not_mem_nil, fun _ hc => absurd hc List.not_mem_nil⟩, .inl rfl⟩

/-- A rule for delimiters matches when it recognizes and the others for delimiters before it
refuse. -/
theorem Rule.match?_delimiter {fs : ScopeStack} {u cs rest : List Char} {d : Char} {rule : Rule}
    {k : Construct} (className : Option String) (hu : Passed fs u) (hd : isDelimiterChar d = true)
    (ha : ∀ context, rule.appliesIn context = true)
    (hr : recognize? className (u ++ d :: cs) rule = some (k, rest))
    (hn : ∀ r ∈ all.takeWhile (· ≠ rule), r = .openBrace ∨ r = .closeBrace →
      recognize? className (u ++ d :: cs) r = none) :
    match? fs.context className (u ++ d :: cs) = some (rule, k, rest) := by
  refine match?_of_recognize? (ha _) hr fun r hmem happ => ?_
  by_cases hb : r = .openBrace ∨ r = .closeBrace
  · exact hn r hmem hb
  rcases hu.body with rfl | hc
  · have hdmem : d ∈ ['\x7b', '\x7d', ';'] := by
      rcases isDelimiterChar_cases hd with rfl | rfl | rfl <;> decide
    refine refuses_delimiter hdmem className cs r ?_
    have hall : ∀ s ∈ all.takeWhile (· ≠ .statement), ¬(s = .openBrace ∨ s = .closeBrace) →
        s ∈ all.takeWhile (· ≠ .openBrace) := by decide
    refine hall r ?_ hb
    have hpre : ∀ s : Rule, ∀ t ∈ all.takeWhile (· ≠ s), t ∈ all.takeWhile (· ≠ .statement) := by
      intro s
      cases s <;> decide
    exact hpre rule r hmem
  · -- In a body only the lines with `#` come before the delimiters.
    have hhash : ∀ c ∈ (u ++ d :: cs).head?, c ≠ '#' := by
      intro c hcm
      cases u with
      | nil =>
        cases hcm
        rcases isDelimiterChar_cases hd with rfl | rfl | rfl <;> decide
      | cons e u =>
        cases hcm
        exact (hu.quiet.1 _ List.mem_cons_self).2
    have hmark : afterMark? '#' (u ++ d :: cs) = none := by
      cases hx : u ++ d :: cs with
      | nil => rfl
      | cons e r =>
        rw [hx] at hhash
        rw [afterMark?, if_neg (hhash e rfl)]
    have hspace : (fs.context == .nameSpace) = false ∧ (fs.context == .classBody) = false := by
      revert hc
      cases fs.context <;> decide
    cases r with
    | define => simp [recognize?, define?, hmark]
    | directive => simp [recognize?, directive?, hmark]
    | openBrace => exact absurd (.inl rfl) hb
    | closeBrace => exact absurd (.inr rfl) hb
    | statement =>
      have hlast : ∀ s : Rule, statement ∉ all.takeWhile (· ≠ s) := by
        intro s
        cases s <;> decide
      exact absurd hmem (hlast rule)
    | _ => simp [appliesIn, hspace] at happ

/-! ## Readings before a delimiter -/

variable {fs gs : ScopeStack} {u v : List Char}

theorem Quiet.append {as bs : List Char} (ha : Quiet as) (hb : Quiet bs) : Quiet (as ++ bs) := by
  refine ⟨fun c hc => ?_, fun c hc => ?_⟩ <;> rcases List.mem_append.mp hc with hc | hc
  · exact ha.1 c hc
  · exact hb.1 c hc
  · exact ha.2 c hc
  · exact hb.2 c hc

theorem mem_of_mem_tokens {cs : List Char} {t : Token} (h : t ∈ Token.tokens cs) {c : Char}
    (hc : c ∈ t.text.toList) : c ∈ cs := by
  fun_induction Token.tokens cs with
  | case1 => cases h
  | case2 cs t' rest hn ih =>
    rw [← Token.append_of_next? hn]
    rcases List.mem_cons.mp h with rfl | h
    · simp [hc]
    · simp [ih h]

theorem Quiet.isDelimiter {w : List Char} (hw : Quiet w) :
    ∀ t ∈ Token.tokens w, Rule.isDelimiter t = false := fun t ht => by
  have hne : ∀ d, isDelimiterChar d = true → t.text ≠ String.ofList [d] := fun d hd he => by
    have hdw := mem_of_mem_tokens ht (c := d) (by rw [he, String.toList_ofList]; simp)
    rw [hw.2 d hdw] at hd
    cases hd
  simp only [Rule.isDelimiter, Bool.or_eq_false_iff, beq_eq_false_iff_ne]
  exact ⟨⟨hne '\x7b' rfl, hne '\x7d' rfl⟩, hne ';' rfl⟩

theorem Quiet.afterMark? {w : List Char} (hw : Quiet w) : Text.afterMark? '#' w = none := by
  cases w with
  | nil => rfl
  | cons c w => rw [Text.afterMark?, if_neg (hw.1 c List.mem_cons_self).2]

theorem Rule.match?_quiet {className : Option String} (hc : fs.context.declares = false)
    {w : List Char} (hw : Quiet w) : match? fs.context className w = none := by
  have hmark := hw.afterMark?
  have htokens := hw.isDelimiter
  have hup : ∀ text, upTo? text (Token.tokens w) = none := fun text => by
    have hd : (Token.tokens w).dropWhile (fun t => !isDelimiter t) = [] :=
      List.dropWhile_eq_nil_iff.mpr fun t ht => by simp [htokens t ht]
    rw [upTo?, hd]
    rfl
  have hspace : (fs.context == .nameSpace) = false ∧ (fs.context == .classBody) = false := by
    revert hc
    cases fs.context <;> decide
  refine List.findSome?_eq_none_iff.mpr fun r hr => ?_
  have happ := (List.mem_filter.mp hr).2
  cases r with
  | define => simp [recognize?, define?, hmark]
  | directive => simp [recognize?, directive?, hmark]
  | openBrace | statement => simp [recognize?, readText, hup]
  | closeBrace => simp [recognize?, readText, throughClose?, hup]
  | _ => simp [appliesIn, hspace] at happ

/-! ## Joined lines -/

theorem isBlank_of_isDelimiterChar {d : Char} (hd : isDelimiterChar d = true) :
    isBlank d = false := by
  rcases isDelimiterChar_cases hd with rfl | rfl | rfl <;> decide

theorem Quiet.join_line {l r : List Char} (hl : Quiet l) (hr : Quiet r) :
    Quiet (trimEnd l ++ ' ' :: trimStart r) := by
  have hblank : Quiet [' '] := by
    refine ⟨fun c hc => ?_, fun c hc => ?_⟩ <;> rw [List.mem_singleton.mp hc] <;> decide
  have hr' : Quiet (trimStart r) := hr.mono fun e he => (trimStart_suffix r).subset he
  exact Quiet.append (hl.mono fun e he => (trimEnd_front l).subset he) (hblank.append hr')

theorem count_join_line {l : List Char} (hl : '\n' ∉ l) (r : List Char) :
    (trimEnd l ++ ' ' :: trimStart r).count '\n' < (l ++ '\n' :: r).count '\n' := by
  have h1 : (trimEnd l).count '\n' = 0 :=
    List.count_eq_zero.mpr fun hm => hl ((trimEnd_front l).subset hm)
  have h2 := (trimStart_suffix r).sublist.count_le '\n'
  rw [List.count_append, List.count_append, h1, List.count_cons_self,
    List.count_cons_of_ne (by decide)]
  omega

/-- In a body a line without a delimiter is joined with the next. -/
theorem Leads.join_line (hc : fs.context.declares = false) {c d : Char} {l r : List Char}
    (hcb : isBlank c = false) (hn : '\n' ∉ c :: l) (hq : Quiet (c :: l)) (hdb : isBlank d = false)
    (v : List Char) :
    Leads fs (c :: l ++ '\n' :: (r ++ d :: v)) [] fs
      ((trimEnd (c :: l) ++ ' ' :: trimStart r) ++ d :: v) := by
  obtain ⟨e, rest, hrest, he⟩ : ∃ e rest, trimStart r ++ d :: v = e :: rest ∧
      isBlank e = false := by
    rcases trimStart_eq_nil_or r with h0 | ⟨e, r', hr, he⟩
    · exact ⟨d, v, by rw [h0]; rfl, hdb⟩
    · exact ⟨e, r' ++ d :: v, by rw [hr]; rfl, he⟩
  have hnone : Rule.match? fs.context (fs.topClass?.map (·.name)) (trimEnd (c :: l)) = none :=
    Rule.match?_quiet hc (hq.mono fun e he => (trimEnd_front _).subset he)
  refine Leads.of_texts (textLines_break hcb hn (r ++ d :: v)) ?_
  rw [trimStart_append hdb, List.append_assoc, List.cons_append, hrest]
  exact leads_of_join (Solid.trimEnd hcb hn) he hnone

/-- In a body the text before a delimiter is joined into one line. -/
theorem Leads.passing (hc : fs.context.declares = false) (hu : Quiet u) {d : Char}
    (hd : isDelimiterChar d = true) (v : List Char) :
    ∃ w, Quiet w ∧ '\n' ∉ w ∧ (∀ c ∈ w.head?, isBlank c = false) ∧
      Leads fs (u ++ d :: v) [] fs (w ++ d :: v) := by
  have hdb := isBlank_of_isDelimiterChar hd
  -- The induction is on the line feeds: joining two lines takes one away.
  induction hn : u.count '\n' using Nat.strongRecOn generalizing u with
  | ind n ih =>
    have hsuf := trimStart_suffix u
    have htexts : textLines (u ++ d :: v) = textLines (trimStart u ++ d :: v) := by
      rw [← textLines_trimStart, trimStart_append hdb]
    rcases trimStart_eq_nil_or u with h0 | ⟨c, r, hr, hcb⟩
    · rw [h0] at htexts
      exact ⟨[], (Passed.nil fs).quiet, List.not_mem_nil, by simp,
        Leads.of_texts htexts (Leads.refl _ _)⟩
    · rw [hr] at htexts hsuf
      have hq : Quiet (c :: r) := hu.mono fun e he => hsuf.subset he
      by_cases hb : '\n' ∈ c :: r
      · obtain ⟨l, r2, hsplit, hl⟩ := List.eq_append_cons_of_mem hb
        obtain ⟨r1, rfl⟩ : ∃ r1, l = c :: r1 := by
          cases l with
          | nil => exact absurd (List.cons.inj hsplit).1 (ne_newline hcb)
          | cons e r1 => exact ⟨r1, by rw [(List.cons.inj hsplit).1]⟩
        rw [hsplit] at htexts hsuf hq
        have hq1 : Quiet (c :: r1) := hq.mono fun e he => List.mem_append_left _ he
        have hq2 : Quiet r2 :=
          hq.mono fun e he => List.mem_append_right _ (List.mem_cons_of_mem _ he)
        have hcount := Nat.lt_of_lt_of_le (count_join_line hl r2) (hsuf.sublist.count_le '\n')
        obtain ⟨w, hw1, hw2, hw3, hw4⟩ := ih _ (hn ▸ hcount) (hq1.join_line hq2) rfl
        refine ⟨w, hw1, hw2, hw3, Leads.of_texts htexts ?_⟩
        rw [List.append_assoc, List.cons_append]
        exact (Leads.join_line hc hcb hl hq1 hdb v).trans hw4
      · exact ⟨c :: r, hq, hb, fun e he => by cases he; exact hcb,
          Leads.of_texts htexts (Leads.refl _ _)⟩

/-- A delimiter with what is passed before it and the semicolons that are taken behind it. -/
theorem leads_delimiter {d : Char} (rule : Rule) {k : Construct} {ks : List Call}
    {gap : List Char} (hu : Passed fs u) (hd : isDelimiterChar d = true) (hg : Semicolons gap)
    (ha : ∀ context, rule.appliesIn context = true) (hk : k.Does fs ks gs)
    (hr : ∀ w className, Quiet w →
      Rule.recognize? className (w ++ d :: (gap ++ lineEnd v)) rule = some (k, lineEnd v))
    (hn : ∀ w className, Quiet w → ∀ r ∈ Rule.all.takeWhile (· ≠ rule),
      r = .openBrace ∨ r = .closeBrace →
        Rule.recognize? className (w ++ d :: (gap ++ lineEnd v)) r = none) :
    Leads fs (u ++ d :: (gap ++ v)) ks gs v := by
  have hdb := isBlank_of_isDelimiterChar hd
  -- What is passed stands on one line.
  obtain ⟨w, hw, hwn, hwh, hpass⟩ : ∃ w, Passed fs w ∧ '\n' ∉ w ∧
      (∀ c ∈ w.head?, isBlank c = false) ∧
        Leads fs (u ++ d :: (gap ++ v)) [] fs (w ++ d :: (gap ++ v)) := by
    rcases hu.body with rfl | hc
    · exact ⟨[], hu, List.not_mem_nil, by simp, Leads.refl _ _⟩
    · obtain ⟨w, h1, h2, h3, h4⟩ := Leads.passing hc hu.quiet hd (gap ++ v)
      exact ⟨w, ⟨h1, .inr hc⟩, h2, h3, h4⟩
  have hsolid : Solid (w ++ d :: gap) := by
    refine ⟨?_, ?_, ?_⟩
    · cases w with
      | nil => exact ⟨d, gap, rfl, hdb⟩
      | cons c w => exact ⟨c, _, rfl, hwh c rfl⟩
    · rcases hg.last with rfl | ⟨r, rfl⟩
      · exact ⟨w, d, rfl, hdb⟩
      · exact ⟨w ++ d :: r, ';', by simp, by decide⟩
    · intro hm
      rcases List.mem_append.mp hm with hm | hm
      · exact hwn hm
      · rcases List.mem_cons.mp hm with hm | hm
        · exact ne_newline hdb hm.symm
        · rcases hg.mem hm with h | h
          · cases h
          · exact h.2 rfl
  have hm := Rule.match?_delimiter (fs.topClass?.map (·.name)) hw hd ha
    (hr w _ hw.quiet) (hn w _ hw.quiet)
  have hmatch : Rule.match? fs.context (fs.topClass?.map (·.name)) ((w ++ d :: gap) ++ lineEnd v) =
      some (rule, k, lineEnd v) := by
    rw [List.append_assoc, List.cons_append]
    exact hm
  have hl := leads_of_match hsolid hmatch hk
  rw [List.append_assoc, List.cons_append] at hl
  exact hpass.trans hl

/-- An opening brace. -/
theorem leads_opening {ks : List Call} (hu : Passed fs u) (hk : Construct.openBrace.Does fs ks gs) :
    Leads fs (u ++ '\x7b' :: v) ks gs v := by
  refine leads_delimiter .openBrace hu rfl .nil (fun _ => rfl) hk
    (fun w _ hw => (Rule.recognize?_opening hw).1) fun w _ hw r hr hb => ?_
  rcases hb with rfl | rfl
  · exact absurd hr (by decide)
  · exact absurd hr (by decide)

/-- A closing brace and the semicolons behind it on its line. -/
theorem leads_closing {ks : List Call} {gap : List Char} (hu : Passed fs u) (hg : Semicolons gap)
    (hv : NoSemicolon v) (hk : Construct.closeBrace.Does fs ks gs) :
    Leads fs (u ++ '\x7d' :: (gap ++ v)) ks gs v := by
  refine leads_delimiter .closeBrace hu rfl hg (fun _ => rfl) hk
    (fun w _ hw => (Rule.recognize?_closing hw hg hv).1) fun w _ hw r hr hb => ?_
  rcases hb with rfl | rfl
  · exact (Rule.recognize?_closing hw hg hv).2
  · exact absurd hr (by decide)

/-- A semicolon. -/
theorem leads_semicolon (hu : Passed fs u) : Leads fs (u ++ ';' :: v) [] fs v := by
  refine leads_delimiter .statement hu rfl .nil (fun _ => rfl) Construct.does_statement
    (fun w _ hw => (Rule.recognize?_semicolon hw).1) fun w _ hw r hr hb => ?_
  rcases hb with rfl | rfl
  · exact (Rule.recognize?_semicolon hw).2.1
  · exact (Rule.recognize?_semicolon hw).2.2

end HeaderOutline
