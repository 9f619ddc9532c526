import HeaderOutline.Rule
import HeaderOutline.SourceLine
import Mathlib.Data.List.Infix
/-!
# Braces outside comments and literals

`bracesFrom` finds the braces of a text that stand outside literals, by one pass with a mode for
quotes; the mode at the end tells whether the last literal is closed. `sourceBraces` does the same
for a header with its comments, line by line.

Results:
* `scan_tokens`: the text of the first tokens has the braces that these tokens are, so marks and
  characters agree on what a brace is.
* `scan_strip`: stripping the comments of a line keeps its braces, when its literals are closed.
* `scan_trim`: blanks at either end do not matter.
-/
namespace HeaderOutline
open Text

inductive Brace where
  | opening
  | closing
  deriving DecidableEq, Repr

namespace Brace

def ofChar? (c : Char) : Option Brace :=
  if c = '\x7b' then some opening else if c = '\x7d' then some closing else none

/-- An opening brace counts up, a closing one down. -/
def value : Brace → Int
  | opening => 1
  | closing => -1

def net : List Brace → Int
  | [] => 0
  | b :: bs => b.value + net bs

/-- Every closing brace has an opening one before it, and nothing stays open. -/
def Balanced (bs : List Brace) : Prop :=
  (∀ us, us <+: bs → 0 ≤ net us) ∧ net bs = 0

instance : DecidablePred Balanced := fun bs =>
  decidable_of_iff ((∀ us ∈ bs.inits, 0 ≤ net us) ∧ net bs = 0) (by simp [Balanced])

@[simp] theorem net_nil : net [] = 0 := rfl

@[simp] theorem net_cons (b : Brace) (bs : List Brace) : net (b :: bs) = b.value + net bs :=
  rfl

@[simp] theorem net_append (bs cs : List Brace) : net (bs ++ cs) = net bs + net cs := by
  induction bs with
  | nil => simp
  | cons b bs ih => rw [List.cons_append, net_cons, net_cons, ih, Int.add_assoc]

end Brace

/-- Where the scan of a text without comments stands: in the code, or in a literal that `quote`
opened, there possibly behind a backslash. -/
inductive QuoteMode where
  | code
  | quoted (quote : Char)
  | escaped (quote : Char)
  deriving DecidableEq, Repr

def QuoteMode.next : QuoteMode → Char → QuoteMode
  | code, c => if isQuote c then quoted c else code
  | quoted q, c => if c = '\\' then escaped q else if c = q then code else quoted q
  | escaped q, _ => quoted q

def QuoteMode.after (m : QuoteMode) (cs : List Char) : QuoteMode :=
  cs.foldl next m

def bracesFrom : QuoteMode → List Char → List Brace
  | _, [] => []
  | m, c :: r => (if m = .code then Brace.ofChar? c else none).toList ++ bracesFrom (m.next c) r

def bracesIn (cs : List Char) : List Brace :=
  bracesFrom .code cs

/-- Every literal in the text ends there. -/
def LiteralsEnd (cs : List Char) : Prop :=
  QuoteMode.code.after cs = .code

instance (cs : List Char) : Decidable (LiteralsEnd cs) :=
  inferInstanceAs (Decidable (_ = _))

theorem after_append (m : QuoteMode) (as bs : List Char) :
    m.after (as ++ bs) = (m.after as).after bs :=
  List.foldl_append

theorem bracesFrom_append (m : QuoteMode) (as bs : List Char) :
    bracesFrom m (as ++ bs) = bracesFrom m as ++ bracesFrom (m.after as) bs := by
  induction as generalizing m with
  | nil => rfl
  | cons c as ih => simp only [List.cons_append, bracesFrom, ih, List.append_assoc]; rfl

/-- Two texts parted where no literal is open are scanned one by one. -/
theorem bracesIn_append {as : List Char} (h : LiteralsEnd as) (bs : List Char) :
    bracesIn (as ++ bs) = bracesIn as ++ bracesIn bs := by
  rw [bracesIn, bracesFrom_append, h]; rfl

theorem literalsEnd_append {as : List Char} (h : LiteralsEnd as) {bs : List Char} :
    LiteralsEnd (as ++ bs) ↔ LiteralsEnd bs := by
  rw [LiteralsEnd, after_append, h]; rfl

/-! ## Plain characters -/

def isPlain (c : Char) : Bool :=
  (Brace.ofChar? c).isNone && !isQuote c

theorem isPlain_iff {c : Char} :
    isPlain c = true ↔ Brace.ofChar? c = none ∧ isQuote c = false := by
  simp [isPlain]

theorem scan_plain {cs : List Char} (h : ∀ c ∈ cs, isPlain c = true) :
    bracesIn cs = [] ∧ LiteralsEnd cs := by
  induction cs with
  | nil => exact ⟨rfl, rfl⟩
  | cons c cs ih =>
    obtain ⟨h1, h2⟩ := isPlain_iff.mp (h c List.mem_cons_self)
    obtain ⟨h3, h4⟩ := ih fun d hd => h d (List.mem_cons_of_mem _ hd)
    constructor
    · simpa [bracesIn, bracesFrom, h1, QuoteMode.next, h2] using h3
    · simpa [LiteralsEnd, QuoteMode.after, QuoteMode.next, h2] using h4

/-- A class of characters without braces and quotes has plain ones only. -/
theorem isPlain_of_class {p : Char → Bool}
    (hp : ∀ d ∈ ['\x7b', '\x7d', '\x22', '\x27'], p d = false) {c : Char} (h : p c = true) :
    isPlain c = true := by
  have hne : ∀ d ∈ ['\x7b', '\x7d', '\x22', '\x27'], c ≠ d := by
    rintro d hd rfl
    rw [hp c hd] at h
    cases h
  simp only [List.mem_cons, List.not_mem_nil, or_false, forall_eq_or_imp, forall_eq] at hne
  simp [isPlain, Brace.ofChar?, isQuote, hne]

theorem isPlain_of_isBlank {c : Char} (h : isBlank c = true) : isPlain c = true :=
  isPlain_of_class (by decide) h

theorem isPlain_of_isNameChar {c : Char} (h : isNameChar c = true) : isPlain c = true :=
  isPlain_of_class (by decide) h

/-! ## Trimming -/

theorem scan_trimStart (cs : List Char) :
    bracesIn (trimStart cs) = bracesIn cs ∧ (LiteralsEnd (trimStart cs) ↔ LiteralsEnd cs) := by
  have hsplit : cs.takeWhile isBlank ++ trimStart cs = cs := List.takeWhile_append_dropWhile
  have hp : ∀ c ∈ cs.takeWhile isBlank, isPlain c = true := fun c hc =>
    isPlain_of_isBlank (List.all_eq_true.mp List.all_takeWhile c hc)
  obtain ⟨h1, h2⟩ := scan_plain hp
  have h3 := bracesIn_append h2 (trimStart cs)
  have h4 : LiteralsEnd (cs.takeWhile isBlank ++ trimStart cs) ↔ LiteralsEnd (trimStart cs) :=
    literalsEnd_append h2
  rw [hsplit] at h3 h4
  rw [h1, List.nil_append] at h3
  exact ⟨h3.symm, h4.symm⟩

def QuoteMode.Proper : QuoteMode → Prop
  | code => True
  | quoted q | escaped q => isQuote q = true

theorem proper_after {m : QuoteMode} (h : m.Proper) (cs : List Char) : (m.after cs).Proper := by
  induction cs generalizing m with
  | nil => exact h
  | cons c cs ih =>
    apply ih
    cases m with
    | code =>
      rw [QuoteMode.next]
      split
      · assumption
      · trivial
    | quoted q =>
      rw [QuoteMode.next]
      split
      · exact h
      · split
        · trivial
        · exact h
    | escaped q => exact h

theorem code_of_next_blank {m : QuoteMode} {c : Char} (hm : m.Proper) (hc : isBlank c = true)
    (h : m.next c = .code) : m = .code := by
  have hq : isQuote c = false := (isPlain_iff.mp (isPlain_of_isBlank hc)).2
  cases m with
  | code => rfl
  | quoted q =>
    simp only [QuoteMode.next] at h
    split at h
    · cases h
    · split at h
      · next he => rw [QuoteMode.Proper, ← he, hq] at hm; cases hm
      · cases h
  | escaped q => cases h

theorem literalsEnd_of_append_blanks {as bs : List Char} (hb : ∀ c ∈ bs, isBlank c = true)
    (h : LiteralsEnd (as ++ bs)) : LiteralsEnd as := by
  induction bs generalizing as with
  | nil => simpa using h
  | cons c bs ih =>
    have h1 : LiteralsEnd (as ++ [c]) :=
      ih (fun d hd => hb d (List.mem_cons_of_mem _ hd)) (by simpa using h)
    rw [LiteralsEnd, after_append] at h1
    exact code_of_next_blank (proper_after (m := .code) trivial as) (hb c List.mem_cons_self) h1

theorem exists_trimEnd (cs : List Char) :
    ∃ bs, (∀ c ∈ bs, isBlank c = true) ∧ trimEnd cs ++ bs = cs := by
  refine ⟨(cs.reverse.takeWhile isBlank).reverse, fun c hc => ?_, ?_⟩
  · exact List.all_eq_true.mp List.all_takeWhile c (List.mem_reverse.mp hc)
  · rw [trimEnd, trimStart, ← List.reverse_append, List.takeWhile_append_dropWhile,
      List.reverse_reverse]

/-- Trimming keeps the braces of a text whose literals are closed, and keeps these closed. -/
theorem scan_trim {cs : List Char} (h : LiteralsEnd cs) :
    bracesIn (trim cs) = bracesIn cs ∧ LiteralsEnd (trim cs) := by
  obtain ⟨h1, h2⟩ := scan_trimStart cs
  obtain ⟨bs, hb, he⟩ := exists_trimEnd (trimStart cs)
  have h3 : LiteralsEnd (trim cs) :=
    literalsEnd_of_append_blanks hb (by rw [trim, he]; exact h2.mpr h)
  have h4 := bracesIn_append h3 bs
  rw [trim, he, h1, (scan_plain fun c hc => isPlain_of_isBlank (hb c hc)).1, List.append_nil] at h4
  exact ⟨h4.symm, h3⟩

/-! ## Tokens -/

def Brace.ofText? : List Char → Option Brace
  | [c] => ofChar? c
  | _ => none

def Token.brace? (t : Token) : Option Brace :=
  Brace.ofText? t.text.toList

theorem ofText?_plain {cs : List Char} (h : ∀ c ∈ cs, isPlain c = true) :
    Brace.ofText? cs = none := by
  unfold Brace.ofText?
  split
  · exact (isPlain_iff.mp (h _ List.mem_cons_self)).1
  · rfl

/-- The rest of a literal holds no brace of the code, and the literal is closed unless the text ends
with it. -/
theorem scan_literalRest {q : Char} (hq : q ≠ '\\') (cs : List Char) :
    bracesFrom (.quoted q) (Token.literalRest q cs).1 = [] ∧
      ((Token.literalRest q cs).2 ≠ [] →
        (QuoteMode.quoted q).after (Token.literalRest q cs).1 = .code) := by
  fun_induction Token.literalRest q cs with
  | case1 => exact ⟨rfl, fun h => absurd rfl h⟩
  | case2 c r inner rest heq ih =>
    rw [heq] at ih
    simpa [bracesFrom, QuoteMode.after, QuoteMode.next] using ih
  | case3 r _ => simp [bracesFrom, QuoteMode.after, QuoteMode.next, hq]
  | case4 c r hno hc inner rest heq ih =>
    rw [heq] at ih
    by_cases hb : c = '\\'
    · -- A backslash with nothing behind it ends the text.
      subst hb
      cases r with
      | nil => cases heq; exact ⟨rfl, fun h => absurd rfl h⟩
      | cons d r => exact absurd rfl (hno d r rfl)
    · simpa [bracesFrom, QuoteMode.after, QuoteMode.next, hb, hc] using ih

/-- The text of one token has the brace that the token is. -/
theorem scan_lexeme (c : Char) (r : List Char) :
    bracesIn (Token.lexeme c r).2.1 = (Brace.ofText? (Token.lexeme c r).2.1).toList ∧
      ((Token.lexeme c r).2.2 ≠ [] → LiteralsEnd (Token.lexeme c r).2.1) := by
  have plain : ∀ {cs : List Char}, (∀ c ∈ cs, isPlain c = true) →
      bracesIn cs = (Brace.ofText? cs).toList ∧ LiteralsEnd cs := fun h =>
    ⟨by rw [(scan_plain h).1, ofText?_plain h]; rfl, (scan_plain h).2⟩
  unfold Token.lexeme
  split
  · next hc =>
    have hw : ∀ d ∈ c :: r.takeWhile isNameChar, isPlain d = true := fun d hd => by
      apply isPlain_of_isNameChar
      rcases List.mem_cons.mp hd with rfl | hd
      · exact hc
      · exact List.all_eq_true.mp List.all_takeWhile d hd
    obtain ⟨h1, h2⟩ := plain hw
    exact ⟨h1, fun _ => h2⟩
  · split
    · next hq =>
      have hb : c ≠ '\\' := by rintro rfl; revert hq; decide
      have hn : Brace.ofChar? c = none := by
        simp only [isQuote, Bool.or_eq_true, beq_iff_eq] at hq
        rcases hq with rfl | rfl <;> rfl
      obtain ⟨h1, h2⟩ := scan_literalRest hb r
      constructor
      · have ht : Brace.ofText? (c :: (Token.literalRest c r).1) = none := by
          unfold Brace.ofText?
          split
          · next he => obtain ⟨rfl, -⟩ := List.cons.inj he; exact hn
          · rfl
        rw [ht]
        simpa [bracesIn, bracesFrom, hn, QuoteMode.next, hq] using h1
      · intro hr
        simpa [LiteralsEnd, QuoteMode.after, QuoteMode.next, hq] using h2 hr
    · next hq =>
      split
      · obtain ⟨h1, h2⟩ := plain (show ∀ d ∈ [':', ':'], isPlain d = true by decide)
        exact ⟨h1, fun _ => h2⟩
      · obtain ⟨h1, h2⟩ := plain (show ∀ d ∈ ['.', '.', '.'], isPlain d = true by decide)
        exact ⟨h1, fun _ => h2⟩
      · constructor
        · simp [bracesIn, bracesFrom, Brace.ofText?]
        · intro _
          simp [LiteralsEnd, QuoteMode.after, QuoteMode.next, hq]

theorem isPlain_of_isSpace {c : Char} (h : isSpace c = true) : isPlain c = true :=
  isPlain_of_isBlank (isBlank_of_isSpace h)

theorem scan_next? {cs rest : List Char} {t : Token} (h : Token.next? cs = some (t, rest)) :
    ∃ lead, lead ++ rest = cs ∧ bracesIn lead = t.brace?.toList ∧
      (rest ≠ [] → LiteralsEnd lead) := by
  refine ⟨cs.takeWhile isSpace ++ t.text.toList, ?_⟩
  have happ := Token.append_of_next? h
  have hp : ∀ c ∈ cs.takeWhile isSpace, isPlain c = true := fun c hc =>
    isPlain_of_isSpace (List.all_eq_true.mp List.all_takeWhile c hc)
  obtain ⟨hs, hl⟩ := scan_plain hp
  rw [bracesIn_append hl, hs, literalsEnd_append hl, List.append_assoc]
  refine ⟨happ, ?_⟩
  obtain ⟨c, r, -, rfl, rfl⟩ := Token.exists_lexeme_of_next? h
  simpa [Token.brace?] using scan_lexeme c r

/-- The text of the first tokens has the braces that these tokens are. -/
theorem scan_tokens (n : Nat) (cs : List Char) :
    ∃ lead, lead ++ Token.afterTokens n cs = cs ∧
      bracesIn lead = ((Token.tokens cs).take n).filterMap Token.brace? ∧
      (Token.afterTokens n cs ≠ [] → LiteralsEnd lead) := by
  induction n generalizing cs with
  | zero => exact ⟨[], rfl, rfl, fun _ => rfl⟩
  | succ n ih =>
    rw [Token.afterTokens]
    split
    · next h => exact ⟨[], rfl, by rw [Token.tokens_of_next?_none h]; rfl, fun _ => rfl⟩
    · next t rest h =>
      obtain ⟨l1, ha1, hb1, hl1⟩ := scan_next? h
      obtain ⟨l2, ha2, hb2, hl2⟩ := ih rest
      have hcases : LiteralsEnd l1 ∨ l2 = [] := by
        by_cases hr : rest = []
        · rw [hr] at ha2
          exact .inr (List.append_eq_nil_iff.mp ha2).1
        · exact .inl (hl1 hr)
      refine ⟨l1 ++ l2, by rw [List.append_assoc, ha2, ha1], ?_, fun hr => ?_⟩
      · rw [Token.tokens_of_next? h, List.take_succ_cons, List.filterMap_cons]
        have hsplit : bracesIn (l1 ++ l2) = bracesIn l1 ++ bracesIn l2 := by
          rcases hcases with hl | rfl
          · exact bracesIn_append hl l2
          · rw [List.append_nil]; exact (List.append_nil _).symm
        rw [hsplit, hb1, hb2]
        cases t.brace? <;> rfl
      · have hne : rest ≠ [] := by
          rintro rfl
          exact hr (List.append_eq_nil_iff.mp ha2).2
        exact (literalsEnd_append (hl1 hne)).mpr (hl2 hr)

/-! ## Comments -/

/-- The braces in the code of a physical line that begins in the mode. -/
def lineBraces : SourceLine.Mode → List Char → List Brace
  | _, [] => []
  | .comment, '*' :: '/' :: r => lineBraces .code r
  | .comment, _ :: r => lineBraces .comment r
  | .quoted q, '\\' :: _ :: r => lineBraces (.quoted q) r
  | .quoted q, c :: r => lineBraces (if c = q then .code else .quoted q) r
  | .code, '/' :: '/' :: _ => []
  | .code, '/' :: '*' :: r => lineBraces .comment r
  | .code, c :: r =>
    (Brace.ofChar? c).toList ++ lineBraces (if isQuote c then .quoted c else .code) r

/-- The braces in the code of physical lines that begin in the mode. -/
def bracesOfLines : SourceLine.Mode → List (List Char) → List Brace
  | _, [] => []
  | m, l :: ls => lineBraces m l ++ bracesOfLines (SourceLine.strip m l).2.nextLine ls

/-- The braces of a header outside comments and literals. -/
def sourceBraces (source : String) : List Brace :=
  bracesOfLines .code (lines source.toList)

def linesCloseLiterals : SourceLine.Mode → List (List Char) → Bool
  | _, [] => true
  | m, l :: ls =>
    let last := (SourceLine.strip m l).2
    (last == .code || last == .comment) && linesCloseLiterals last.nextLine ls

/-- Every literal of the header closes on the line it starts on. -/
def literalsClose (source : String) : Bool :=
  linesCloseLiterals .code (lines source.toList)

/-- The mode in which the text that is kept of a line is scanned. -/
def SourceLine.Mode.quoteMode : SourceLine.Mode → QuoteMode
  | .code | .comment => .code
  | .quoted q => .quoted q

theorem quoteMode_next_code (c : Char) :
    SourceLine.Mode.code.quoteMode.next c =
      (if isQuote c then SourceLine.Mode.quoted c else .code).quoteMode := by
  simp only [SourceLine.Mode.quoteMode, QuoteMode.next]
  split <;> rfl

theorem quoteMode_next_quoted {q c : Char} (hc : c ≠ '\\') :
    (SourceLine.Mode.quoted q).quoteMode.next c =
      (if c = q then SourceLine.Mode.code else .quoted q).quoteMode := by
  simp only [SourceLine.Mode.quoteMode, QuoteMode.next, if_neg hc]
  split <;> rfl

/-- A character that is kept, before a text that is scanned to its end. -/
theorem scan_kept {m m' : SourceLine.Mode} {c : Char} {kept : List Char} {bs : List Brace}
    (hm : m.quoteMode.next c = m'.quoteMode)
    (h : bracesFrom m'.quoteMode kept = bs ∧ m'.quoteMode.after kept = .code) :
    bracesFrom m.quoteMode (c :: kept) =
        (if m.quoteMode = .code then Brace.ofChar? c else none).toList ++ bs ∧
      m.quoteMode.after (c :: kept) = .code := by
  rw [← hm] at h
  rw [bracesFrom, h.1]
  exact ⟨rfl, h.2⟩

/-- Stripping the comments of a line keeps its braces, when no literal is open at its end. -/
theorem scan_strip {m : SourceLine.Mode} {l : List Char}
    (hq : ∀ q, m = .quoted q → q ≠ '\\')
    (h : (SourceLine.strip m l).2 = .code ∨ (SourceLine.strip m l).2 = .comment) :
    bracesFrom m.quoteMode (SourceLine.strip m l).1 = lineBraces m l ∧
      m.quoteMode.after (SourceLine.strip m l).1 = .code := by
  fun_induction SourceLine.strip m l with
  | case1 m =>
    rcases h with rfl | rfl <;> exact ⟨rfl, rfl⟩
  | case2 r kept last heq ih =>
    rw [heq] at ih
    obtain ⟨h1, h2⟩ := ih (fun _ hc => by cases hc) h
    exact ⟨by simpa [SourceLine.Mode.quoteMode, bracesFrom, Brace.ofChar?, QuoteMode.next, isQuote,
      lineBraces] using h1, h2⟩
  | case3 c r hno ih =>
    obtain ⟨h1, h2⟩ := ih (fun _ hc => by cases hc) h
    have he : lineBraces .comment (c :: r) = lineBraces .comment r := by
      rw [lineBraces]
      exact hno
    exact ⟨by rw [he]; exact h1, h2⟩
  | case4 q c r kept last heq ih =>
    rw [heq] at ih
    obtain ⟨h1, h2⟩ := ih hq h
    refine ⟨?_, h2⟩
    simpa [SourceLine.Mode.quoteMode, bracesFrom, QuoteMode.next, lineBraces] using h1
  | case5 q c r hno kept last heq ih =>
    have hb : c ≠ '\\' := by
      -- A backslash with nothing behind it leaves the literal open.
      rintro rfl
      cases r with
      | nil =>
        rw [if_neg (hq q rfl).symm, SourceLine.strip] at heq
        cases heq
        rcases h with h | h <;> cases h
      | cons d r => exact hno d r rfl rfl
    have he : lineBraces (.quoted q) (c :: r) =
        lineBraces (if c = q then .code else .quoted q) r := by
      rw [lineBraces]
      exact hno
    rw [heq] at ih
    rw [he]
    exact scan_kept (quoteMode_next_quoted hb)
      (ih (fun q' hc => by split at hc <;> cases hc; exact hq q rfl) h)
  | case6 r => exact ⟨rfl, rfl⟩
  | case7 r ih =>
    obtain ⟨h1, h2⟩ := ih (fun _ hc => by cases hc) h
    exact ⟨by rw [lineBraces]; exact h1, h2⟩
  | case8 c r hno1 hno2 kept last heq ih =>
    have he : lineBraces .code (c :: r) =
        (Brace.ofChar? c).toList ++ lineBraces (if isQuote c then .quoted c else .code) r := by
      rw [lineBraces]
      · exact hno1
      · exact hno2
    rw [heq] at ih
    rw [he]
    refine scan_kept (quoteMode_next_code c) (ih (fun q hc => ?_) h)
    split at hc <;> cases hc
    rintro rfl
    revert ‹isQuote _ = true›
    decide

theorem scan_ofLines (m : SourceLine.Mode) (n : Nat) (ls : List (List Char))
    (hm : m = .code ∨ m = .comment) (h : linesCloseLiterals m ls = true) :
    (SourceLine.ofLines m n ls).flatMap (fun l => bracesIn l.text) = bracesOfLines m ls ∧
      ∀ l ∈ SourceLine.ofLines m n ls, LiteralsEnd l.text := by
  induction ls generalizing m n with
  | nil => exact ⟨rfl, fun _ hl => by cases hl⟩
  | cons l ls ih =>
    simp only [linesCloseLiterals, Bool.and_eq_true, Bool.or_eq_true, beq_iff_eq] at h
    obtain ⟨hlast, hls⟩ := h
    have hcode : m.quoteMode = .code := by rcases hm with rfl | rfl <;> rfl
    have hquoted : ∀ q, m = .quoted q → q ≠ '\\' := fun q hq => by
      rcases hm with rfl | rfl <;> cases hq
    have hs := scan_strip (m := m) (l := l) hquoted hlast
    rw [hcode] at hs
    have hkept : LiteralsEnd (SourceLine.strip m l).1 := hs.2
    obtain ⟨ht1, ht2⟩ := scan_trim hkept
    have hnext : (SourceLine.strip m l).2.nextLine = .code ∨
        (SourceLine.strip m l).2.nextLine = .comment := by
      rcases hlast with h | h <;> rw [h] <;> simp [SourceLine.Mode.nextLine]
    obtain ⟨hi1, hi2⟩ := ih _ (n + 1) hnext hls
    simp only [SourceLine.ofLines, bracesOfLines, ← hi1, ← hs.1]
    rw [show bracesFrom .code (SourceLine.strip m l).1 = _ from ht1.symm]
    split
    · next he =>
      rw [List.isEmpty_iff.mp he]
      exact ⟨rfl, hi2⟩
    · refine ⟨rfl, fun k hk => ?_⟩
      rcases List.mem_cons.mp hk with rfl | hk
      · exact ht2
      · exact hi2 k hk

/-- The lines that are read of a header have the braces of its code, and each closes its
literals, when every literal of the header closes on its line. -/
theorem scan_ofSource {source : String} (h : literalsClose source = true) :
    (SourceLine.ofSource source.toList).flatMap (fun l => bracesIn l.text) = sourceBraces source ∧
      ∀ l ∈ SourceLine.ofSource source.toList, LiteralsEnd l.text :=
  scan_ofLines .code 1 _ (.inl rfl) h

end HeaderOutline
