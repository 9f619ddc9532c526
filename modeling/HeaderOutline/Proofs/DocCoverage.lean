import HeaderOutline.Proofs.DocInsertion
/-!
# Which lines get a comment

A line with a target gets a comment unless it is documented: it begins with a documentation comment
or inside one, or the last line with text above it is a line of one. Where such comments stand is
told here by `Place`, which reads a line as the stripping of comments does. The insertion itself
looks only at how lines begin, so it takes a slash and two asterisks in front of a line for a
comment that goes on to the next closing mark, wherever the line stands (`Misread`). It is wrong
where the mark closes the comment at once, and in an ordinary comment.

Results:
* `Place.mode_below`: places agree with the modes in which comments are stripped.
* `misread_iff`: what keeps an undocumented line from getting its comment.
* `insert_complete`: which undocumented lines get their comment.
-/
namespace HeaderOutline.DocComment
open Text

/-! ## Places -/

/-- Where the reading of a line stands. -/
inductive Place where
  | code
  /-- Inside a literal that `quote` opened. -/
  | quoted (quote : Char)
  /-- Inside an ordinary block comment. -/
  | plain
  /-- Inside a documentation comment. -/
  | doc
  deriving DecidableEq, Repr

namespace Place

/-- What a slash and an asterisk open, by what stands behind them: a documentation comment begins
with one more asterisk, which does not belong to the closing mark. -/
def opened : List Char → Place
  | '*' :: '/' :: _ => plain
  | '*' :: _ => doc
  | _ => plain

def behind : Place → List Char → Place
  | p, [] => p
  | code, '/' :: '/' :: _ => code
  | code, '/' :: '*' :: r => behind (opened r) r
  | code, c :: r => behind (if isQuote c then quoted c else code) r
  | quoted q, '\\' :: _ :: r => behind (quoted q) r
  | quoted q, c :: r => behind (if c = q then code else quoted q) r
  | plain, '*' :: '/' :: r => behind code r
  | plain, _ :: r => behind plain r
  | doc, '*' :: '/' :: r => behind code r
  | doc, _ :: r => behind doc r

def nextLine : Place → Place
  | quoted _ => code
  | p => p

def below (ls : List (List Char)) : Place :=
  ls.foldl (fun p l => (p.behind (dropEnd l)).nextLine) code

def mode : Place → SourceLine.Mode
  | code => .code
  | quoted q => .quoted q
  | plain | doc => .comment

theorem mode_opened (cs : List Char) : (opened cs).mode = .comment := by
  unfold opened
  split <;> rfl

theorem mode_behind (p : Place) (cs : List Char) :
    (p.behind cs).mode = (SourceLine.strip p.mode cs).2 := by
  fun_induction behind p cs with
  | case1 => simp [SourceLine.strip]
  | case3 r ih => rw [ih, mode_opened]; rfl
  | case4 c r h1 h2 ih =>
    rw [ih]
    split <;> simp_all [SourceLine.strip, mode]
  | case6 q c r h ih =>
    rw [ih]
    split <;> simp_all [SourceLine.strip, mode]
  | _ => simp_all [SourceLine.strip, mode]

/-- Places agree with the modes in which comments are stripped. -/
theorem mode_below (ls : List (List Char)) :
    (below ls).mode = SourceLine.Mode.code.afterLines (ls.map dropEnd) := by
  have hnext : ∀ p : Place, p.nextLine.mode = p.mode.nextLine := fun p => by cases p <;> rfl
  induction ls using List.reverseRecOn with
  | nil => rfl
  | append_singleton ls l ih =>
    rw [below, List.foldl_append, ← below]
    simp only [List.foldl_cons, List.foldl_nil]
    rw [hnext, mode_behind, ih, SourceLine.Mode.afterLines, SourceLine.Mode.afterLines,
      List.map_append, List.foldl_append]
    rfl

theorem below_concat (ls : List (List Char)) (l : List Char) :
    below (ls ++ [l]) = ((below ls).behind (dropEnd l)).nextLine := by
  rw [below, List.foldl_append]
  rfl

theorem below_cases (ls : List (List Char)) :
    below ls = code ∨ below ls = plain ∨ below ls = doc := by
  have hmode := SourceLine.afterLines_cases (.inl rfl) (ls.map dropEnd)
  rw [← mode_below] at hmode
  cases hp : below ls with
  | quoted q => simp [hp, mode] at hmode
  | code | plain | doc => simp

theorem behind_blanks {bs : List Char} (h : ∀ c ∈ bs, isBlank c = true) (cs : List Char) :
    code.behind (bs ++ cs) = code.behind cs := by
  induction bs with
  | nil => rfl
  | cons b bs ih =>
    have hb := h b List.mem_cons_self
    have hslash : b ≠ '/' := by rintro rfl; exact absurd hb (by decide)
    have hquote : isQuote b = false := (isPlain_iff.mp (isPlain_of_isBlank hb)).2
    rw [List.cons_append, behind, hquote, if_neg (by simp), ih fun c hc => h c (by simp [hc])]
    · exact fun _ he _ => hslash he
    · exact fun _ he _ => hslash he

/-- A documentation comment goes on as long as nothing closes it. -/
theorem behind_doc {cs : List Char} (h : closesBlock cs = false) : doc.behind cs = doc := by
  fun_induction closesBlock cs with
  | case1 => cases h
  | case2 c r hne ih =>
    rw [behind]
    · exact ih h
    · exact fun r' hc => hne r' hc
  | case3 => rfl

end Place

/-! ## Lines without the blanks around them -/

theorem closesBlock_blanks {bs : List Char} (h : ∀ c ∈ bs, isBlank c = true) (cs : List Char) :
    closesBlock (bs ++ cs) = closesBlock cs := by
  induction bs with
  | nil => rfl
  | cons b bs ih =>
    have hb : b ≠ '*' := fun he => absurd (h b List.mem_cons_self) (by rw [he]; decide)
    rw [List.cons_append, closesBlock, ih fun c hc => h c (List.mem_cons_of_mem _ hc)]
    exact fun _ he => absurd he hb

theorem closesBlock_append_blanks {bs : List Char} (h : ∀ c ∈ bs, isBlank c = true)
    (cs : List Char) : closesBlock (cs ++ bs) = closesBlock cs := by
  fun_induction closesBlock cs with
  | case1 => rfl
  | case2 c r hne ih =>
    rw [List.cons_append, closesBlock, ih]
    -- The blanks behind an asterisk are no slash.
    rintro r' rfl hr
    cases r with
    | nil =>
      rw [List.nil_append] at hr
      exact absurd (h '/' (by rw [hr]; exact List.mem_cons_self)) (by decide)
    | cons d r =>
      rw [List.cons_append] at hr
      exact hne r rfl (by rw [(List.cons.inj hr).1])
  | case3 => simpa [closesBlock] using closesBlock_blanks h []

/-- A line is its trimmed text between blanks. -/
theorem exists_trim (l : List Char) : ∃ as bs, (∀ c ∈ as, isBlank c = true) ∧
    (∀ c ∈ bs, isBlank c = true) ∧ dropEnd l = as ++ (trim l ++ bs) := by
  have htrim : trim (dropEnd l) = trim l := by
    by_cases hl : l.getLast? = some '\n'
    · obtain ⟨r, rfl⟩ := List.getLast?_eq_some_iff.mp hl
      rw [trim_dropEnd, ← trimStart_trimEnd (r ++ ['\n']), trimEnd_append_blank (by decide),
        trimStart_trimEnd]
    · rw [dropEnd, if_neg hl]
  obtain ⟨bs, hbs, heq⟩ := exists_trimEnd (trimStart (dropEnd l))
  refine ⟨(dropEnd l).takeWhile isBlank, bs, List.all_eq_true.mp List.all_takeWhile, hbs, ?_⟩
  rw [← htrim, trim, heq]
  exact List.takeWhile_append_dropWhile.symm

theorem closesBlock_dropEnd (l : List Char) : closesBlock (dropEnd l) = closesBlock (trim l) := by
  obtain ⟨as, bs, has, hbs, heq⟩ := exists_trim l
  rw [heq, closesBlock_blanks has, closesBlock_append_blanks hbs]

/-! ## Documentation comments -/

/-- A trimmed line begins with a comment that is closed as soon as it is opened. -/
def opensEmpty (line : List Char) : Bool :=
  (after? "/**/" line).isSome

theorem isSome_of_opensEmpty {line : List Char} (h : opensEmpty line = true) :
    (after? "/**" line).isSome = true := by
  obtain ⟨r, hr⟩ := Option.isSome_iff_exists.mp h
  rw [← append_of_after? hr]
  rfl

def opensDoc (line : List Char) : Bool :=
  (after? "/**" line).isSome && !opensEmpty line

/-- The line `l` below the lines `before` begins with a documentation comment or inside one. -/
def BelongsToDoc (before : List (List Char)) (l : List Char) : Prop :=
  Place.below before = .doc ∨ Place.below before = .code ∧ opensDoc (trim l) = true

/-- The line `l` below the lines `before` is not documented yet. -/
structure Undocumented (before : List (List Char)) (l : List Char) : Prop where
  /-- It does not begin with a documentation comment. -/
  start : (after? "///" (trim l)).isSome = false ∧ opensDoc (trim l) = false
  /-- It does not begin inside one. -/
  outside : Place.below before ≠ .doc
  /-- The last line with text above it does not belong to one. -/
  above : ∀ pre k mid, before = pre ++ k :: mid → trim k ≠ [] → (∀ x ∈ mid, trim x = []) →
    (after? "///" (trim k)).isSome = false ∧ ¬ BelongsToDoc pre k

/-- What closes a block in a line that opens one stands behind the opening mark, unless that is
closed at once. -/
theorem closesBlock_opener {line r : List Char} (h : after? "/**" line = some r)
    (he : opensEmpty line = false) :
    line = '/' :: '*' :: '*' :: r ∧ closesBlock ('*' :: r) = closesBlock r ∧
      ∀ bs, (∀ c ∈ bs, isBlank c = true) → Place.opened ('*' :: (r ++ bs)) = .doc := by
  obtain rfl := append_of_after? h
  have hr : ∀ r', r ≠ '/' :: r' := by
    rintro r' rfl
    have hsome : after? "/**/" ("/**".toList ++ '/' :: r') = some r' := after?_append "/**/" r'
    rw [opensEmpty, hsome] at he
    cases he
  refine ⟨rfl, ?_, ?_⟩
  · rw [closesBlock]
    exact fun r' _ hc => hr r' hc
  · intro bs hbs
    cases hx : r ++ bs with
    | nil => rfl
    | cons d r' =>
      have hd : d ≠ '/' := by
        rintro rfl
        cases r with
        | nil => exact absurd (hbs '/' (by rw [← List.nil_append bs, hx]; simp)) (by decide)
        | cons e r => exact hr r (by rw [(List.cons.inj hx).1])
      rw [Place.opened]
      exact fun r' hc => hd (List.cons.inj hc).1

/-- Below a line that begins with a documentation comment the comment goes on until something
closes it. -/
theorem Place.below_opener {xs mid : List (List Char)} {k r : List Char}
    (hk : after? "/**" (trim k) = some r) (he : opensEmpty (trim k) = false)
    (hxs : below xs ≠ plain) (hr : closesBlock r = false)
    (hmid : ∀ x ∈ mid, closesBlock (trim x) = false) : below (xs ++ k :: mid) = doc := by
  obtain ⟨hline, hcloses, hopened⟩ := closesBlock_opener hk he
  have hfirst : below (xs ++ [k]) = doc := by
    obtain ⟨as, bs, has, hbs, heq⟩ := exists_trim k
    have hfree : closesBlock ('*' :: (r ++ bs)) = false := by
      rw [← List.cons_append, closesBlock_append_blanks hbs, hcloses, hr]
    have hdoc : doc.behind (dropEnd k) = doc := behind_doc (by
      rw [closesBlock_dropEnd, hline]
      exact hcloses.trans hr)
    rw [below_concat]
    rcases below_cases xs with hc | hc | hc
    · rw [hc, heq, behind_blanks has, hline]
      show (behind (opened ('*' :: (r ++ bs))) ('*' :: (r ++ bs))).nextLine = doc
      rw [hopened bs hbs, behind_doc hfree]
      rfl
    · exact absurd hc hxs
    · rw [hc, hdoc]
      rfl
  rw [← List.singleton_append, ← List.append_assoc]
  induction mid using List.reverseRecOn with
  | nil => simpa using hfirst
  | append_singleton mid x ih =>
    rw [← List.append_assoc, below_concat, ih fun y hy => hmid y (by simp [hy]), behind_doc]
    · rfl
    · rw [closesBlock_dropEnd]
      exact hmid x (by simp)

/-! ## Coverage -/

def Coverage.through (c : Coverage) (ls : List (List Char)) : Coverage :=
  ls.foldl (fun c l => c.below (trim l)) c

def coverageBelow (ls : List (List Char)) : Coverage :=
  Coverage.bare.through ls

theorem coverageBelow_append (ls ms : List (List Char)) :
    coverageBelow (ls ++ ms) = (coverageBelow ls).through ms :=
  List.foldl_append

theorem coverageBelow_concat (ls : List (List Char)) (l : List Char) :
    coverageBelow (ls ++ [l]) = (coverageBelow ls).below (trim l) :=
  coverageBelow_append ls [l]

namespace Coverage

variable {c : Coverage} {line r : List Char}

theorem below_blank (c : Coverage) (h : line = []) : c.below line = c := by
  rw [below, h, List.isEmpty_nil, if_pos rfl]

theorem below_inside (line : List Char) :
    inside.below line = if closesBlock line then documented else inside := by
  cases line with
  | nil => rfl
  | cons => rw [below, if_neg (by simp), if_pos rfl]

theorem below_opener (hc : c ≠ inside) (h : after? "/**" line = some r) :
    c.below line = if closesBlock r then documented else inside := by
  have hline := append_of_after? h
  have hslash : (after? "///" line).isSome = false := by rw [← hline]; rfl
  rw [below, if_neg (by rw [← hline]; simp), if_neg hc, hslash, h]
  rfl

/-- A line with text that does not open a block, where none is open. -/
theorem below_other (hc : c ≠ inside) (hline : line ≠ []) (h : after? "/**" line = none) :
    c.below line = if (after? "///" line).isSome then documented else bare := by
  rw [below, if_neg (by simpa using hline), if_neg hc, h]

end Coverage

/-- A line above, in which no block is open, begins with the mark of a documentation comment, though
it has none: the mark closes the comment at once, or stands in an ordinary one. And behind the first
closing mark that follows there are only lines without text. -/
def Misread (before : List (List Char)) : Prop :=
  ∃ pre k mid r, before = pre ++ k :: mid ∧ coverageBelow pre ≠ .inside ∧
    after? "/**" (trim k) = some r ∧ (opensEmpty (trim k) = true ∨ Place.below pre = .plain) ∧
    ∀ x ∈ ((r :: mid.map trim).dropWhile (!closesBlock ·)).tail, x = []

/-- A block that is still open below some lines is opened by one of them. -/
theorem exists_opener {ls : List (List Char)} (h : coverageBelow ls = .inside) :
    ∃ pre k mid r, ls = pre ++ k :: mid ∧ coverageBelow pre ≠ .inside ∧
      after? "/**" (trim k) = some r ∧ ∀ x ∈ r :: mid.map trim, closesBlock x = false := by
  induction ls using List.reverseRecOn with
  | nil => cases h
  | append_singleton ls l ih =>
    rw [coverageBelow_concat] at h
    by_cases hc : coverageBelow ls = .inside
    · obtain ⟨pre, k, mid, r, rfl, hpre, hk, hmid⟩ := ih hc
      refine ⟨pre, k, mid ++ [l], r, by simp, hpre, hk, fun x hx => ?_⟩
      rw [hc, Coverage.below_inside] at h
      rw [List.map_append, ← List.cons_append, List.mem_append] at hx
      rcases hx with hx | hx
      · exact hmid x hx
      · rw [List.mem_singleton.mp hx]
        by_contra hl
        rw [if_pos (by simpa using hl)] at h
        cases h
    · cases hl : after? "/**" (trim l) with
      | some r =>
        rw [Coverage.below_opener hc hl] at h
        refine ⟨ls, l, [], r, rfl, hc, hl, fun x hx => ?_⟩
        rw [List.mem_singleton.mp hx]
        by_contra hr
        rw [if_pos (by simpa using hr)] at h
        cases h
      | none =>
        by_cases hne : trim l = []
        · rw [Coverage.below_blank _ hne] at h
          exact absurd h hc
        · rw [Coverage.below_other hc hne hl] at h
          split at h <;> cases h

/-- The last line with text settles the coverage. -/
theorem exists_last_text {ls : List (List Char)} (h : coverageBelow ls ≠ .bare) :
    ∃ pre k mid, ls = pre ++ k :: mid ∧ trim k ≠ [] ∧ (∀ x ∈ mid, trim x = []) ∧
      coverageBelow ls = (coverageBelow pre).below (trim k) := by
  induction ls using List.reverseRecOn with
  | nil => exact absurd rfl h
  | append_singleton ls l ih =>
    by_cases hne : trim l = []
    · rw [coverageBelow_concat, Coverage.below_blank _ hne] at h ⊢
      obtain ⟨pre, k, mid, rfl, hk, hmid, heq⟩ := ih h
      refine ⟨pre, k, mid ++ [l], by simp, hk, fun x hx => ?_, heq⟩
      rcases List.mem_append.mp hx with hx | hx
      · exact hmid x hx
      · rw [List.mem_singleton.mp hx, hne]
    · exact ⟨ls, l, [], rfl, hne, by simp, coverageBelow_concat ls l⟩

theorem dropWhile_not_closes {ls : List (List Char)} (h : ∀ x ∈ ls, closesBlock x = false)
    (ms : List (List Char)) :
    (ls ++ ms).dropWhile (!closesBlock ·) = ms.dropWhile (!closesBlock ·) :=
  List.dropWhile_append_of_pos fun x hx => by simp [h x hx]

section

variable {before : List (List Char)} {l : List Char}

/-- Where a line is covered and not documented, a line above it is misread. -/
theorem Undocumented.misread (hu : Undocumented before l) (h : coverageBelow before ≠ .bare) :
    Misread before := by
  cases hc : coverageBelow before with
  | bare => exact absurd hc h
  | inside =>
    obtain ⟨pre, k, mid, r, rfl, hpre, hk, hmid⟩ := exists_opener hc
    by_cases hwrong : opensEmpty (trim k) = true ∨ Place.below pre = .plain
    · have hnone := dropWhile_not_closes hmid []
      rw [List.append_nil] at hnone
      exact ⟨pre, k, mid, r, rfl, hpre, hk, hwrong, by rw [hnone]; simp⟩
    · rw [not_or, Bool.not_eq_true] at hwrong
      exact absurd (Place.below_opener hk hwrong.1 hwrong.2 (hmid r (by simp))
        fun x hx => hmid _ (by simp; exact .inr ⟨x, hx, rfl⟩)) hu.outside
  | documented =>
    obtain ⟨pre, k, mid, rfl, hne, hmid, hbelow⟩ := exists_last_text h
    obtain ⟨hslash, hdoc⟩ := hu.above pre k mid rfl hne hmid
    have hblank : ∀ x ∈ mid.map trim, x = [] := by simpa using hmid
    rw [hc] at hbelow
    by_cases hpre : coverageBelow pre = .inside
    · -- The line closes the block that is open above it.
      rw [hpre, Coverage.below_inside] at hbelow
      have hcloses : closesBlock (trim k) = true := by
        by_contra hno
        rw [if_neg hno] at hbelow
        cases hbelow
      obtain ⟨pre', k', mid', r, rfl, hpre', hk', hmid'⟩ := exists_opener hpre
      by_cases hwrong : opensEmpty (trim k') = true ∨ Place.below pre' = .plain
      · refine ⟨pre', k', mid' ++ k :: mid, r, by simp, hpre', hk', hwrong, ?_⟩
        rw [List.map_append, ← List.cons_append, dropWhile_not_closes hmid', List.map_cons,
          List.dropWhile_cons, if_neg (by simp [hcloses])]
        exact hblank
      · rw [not_or, Bool.not_eq_true] at hwrong
        exact absurd (.inl (Place.below_opener hk' hwrong.1 hwrong.2 (hmid' r (by simp))
          fun x hx => hmid' _ (by simp; exact .inr ⟨x, hx, rfl⟩))) hdoc
    · -- No block is open above it, so it opens one and closes it.
      cases hk : after? "/**" (trim k) with
      | none =>
        rw [Coverage.below_other hpre hne hk, hslash] at hbelow
        cases hbelow
      | some r =>
        rw [Coverage.below_opener hpre hk] at hbelow
        have hcloses : closesBlock r = true := by
          by_contra hno
          rw [if_neg hno] at hbelow
          cases hbelow
        refine ⟨pre, k, mid, r, rfl, hpre, hk, ?_, ?_⟩
        · by_contra hright
          rw [not_or, Bool.not_eq_true] at hright
          refine hdoc ?_
          rcases Place.below_cases pre with hp | hp | hp
          · exact .inr ⟨hp, by simp [opensDoc, hk, hright.1]⟩
          · exact absurd hp hright.2
          · exact .inl hp
        · rw [List.dropWhile_cons, if_neg (by simp [hcloses])]
          exact hblank

theorem Coverage.through_blank {ls : List (List Char)} (h : ∀ x ∈ ls, trim x = []) (c : Coverage) :
    c.through ls = c := by
  induction ls with
  | nil => rfl
  | cons l ls ih =>
    rw [through, List.foldl_cons, below_blank c (h l List.mem_cons_self)]
    exact ih fun x hx => h x (List.mem_cons_of_mem _ hx)

/-- An open block covers what follows as long as nothing closes it, and the lines without text
behind that. -/
theorem Coverage.through_inside {ls : List (List Char)}
    (h : ∀ x ∈ ((ls.map trim).dropWhile (!closesBlock ·)).tail, x = []) :
    inside.through ls ≠ bare := by
  induction ls with
  | nil => simp [through]
  | cons l ls ih =>
    rw [List.map_cons, List.dropWhile_cons] at h
    rw [through, List.foldl_cons, below_inside]
    cases hl : closesBlock (trim l) with
    | false =>
      rw [hl] at h
      exact ih h
    | true =>
      rw [hl] at h
      have hnone : ∀ x ∈ ls, trim x = [] := by simpa using h
      have hblank := through_blank hnone documented
      rw [through] at hblank
      rw [if_pos rfl, hblank]
      simp

/-- A line that is misread covers what follows it. -/
theorem Misread.ne_bare (h : Misread before) : coverageBelow before ≠ .bare := by
  obtain ⟨pre, k, mid, r, rfl, hpre, hk, -, htail⟩ := h
  rw [List.dropWhile_cons] at htail
  rw [← List.singleton_append, ← List.append_assoc, coverageBelow_append, coverageBelow_concat,
    Coverage.below_opener hpre hk]
  cases hr : closesBlock r with
  | false =>
    rw [hr] at htail
    exact Coverage.through_inside htail
  | true =>
    rw [hr] at htail
    rw [if_pos rfl, Coverage.through_blank (by simpa using htail)]
    simp

theorem misread_iff (hu : Undocumented before l) :
    Misread before ↔ coverageBelow before ≠ .bare :=
  ⟨Misread.ne_bare, hu.misread⟩

end

/-! ## Comments -/

theorem commentsFrom_append (targets : List DocTarget) (n : Nat) (c : Coverage)
    (before : List (List Char)) (l : List Char) (after : List (List Char)) :
    (commentsFrom targets n c (before ++ l :: after))[before.length]? =
      some (above targets (n + before.length) (c.through before) l) := by
  induction before generalizing n c with
  | nil => rfl
  | cons k before ih =>
    rw [List.cons_append, commentsFrom, List.length_cons, List.getElem?_cons_succ, ih,
      Nat.add_right_comm, Nat.add_assoc]
    rfl

/-- A line with a target that is not documented gets a comment, unless it begins with a comment that
is closed as soon as it is opened or a line above it is misread. -/
theorem insert_complete {source : String} {targets : List DocTarget}
    {before after : List (List Char)} {l : List Char} {t : DocTarget}
    (hlines : rawLines source.toList = before ++ l :: after)
    (ht : targets.find? (·.line == before.length + 1) = some t) (hu : Undocumented before l) :
    ∃ blocks, insertLines source targets = weave blocks (rawLines source.toList) ∧
      blocks.length = (rawLines source.toList).length ∧
      (opensEmpty (trim l) = true ∨ Misread before → blocks[before.length]? = some []) ∧
      (¬ (opensEmpty (trim l) = true ∨ Misread before) →
        blocks[before.length]? = some (block (l.takeWhile isBlank) t.subject)) := by
  have hstarts : startsComment (trim l) = opensEmpty (trim l) := by
    rw [startsComment, hu.start.1, Bool.false_or]
    have hdoc := hu.start.2
    cases he : opensEmpty (trim l) with
    | true => exact isSome_of_opensEmpty he
    | false => simpa [opensDoc, he] using hdoc
  have habove : above targets (1 + before.length) (coverageBelow before) l =
      if coverageBelow before = .bare ∧ !opensEmpty (trim l) then
        block (l.takeWhile isBlank) t.subject
      else [] := by
    rw [above, Nat.add_comm, ht, hstarts]
  refine ⟨commentsFrom targets 1 .bare (rawLines source.toList), insertFrom_eq_weave ..,
    length_commentsFrom .., fun hwrong => ?_, fun hright => ?_⟩
  · rw [hlines, commentsFrom_append, ← coverageBelow, habove, if_neg]
    rintro ⟨hbare, hempty⟩
    rcases hwrong with he | hm
    · rw [he] at hempty
      cases hempty
    · exact hm.ne_bare hbare
  · rw [not_or, misread_iff hu, not_not] at hright
    rw [hlines, commentsFrom_append, ← coverageBelow, habove, if_pos]
    exact ⟨hright.2, by simpa using hright.1⟩

theorem insert_complete_emptyComment :
    let source := "/**/\nint x;\nint f();\n"
    let targets : List DocTarget := [⟨3, .function true []⟩]
    Undocumented ["/**/\n".toList, "int x;\n".toList] "int f();\n".toList ∧
      ∃ blocks, insertLines source targets = weave blocks (rawLines source.toList) ∧
        blocks[2]? = some [] := by
  intro source targets
  have hu : Undocumented ["/**/\n".toList, "int x;\n".toList] "int f();\n".toList := by
    refine ⟨by decide, by decide, fun pre k mid heq _ hmid => ?_⟩
    rcases List.eq_nil_or_concat mid with rfl | ⟨m, x, rfl⟩
    · have heq' : ["/**/\n".toList] ++ ["int x;\n".toList] = pre ++ [k] := heq
      obtain ⟨rfl, hk⟩ := List.append_inj' heq' rfl
      obtain rfl := (List.cons.inj hk).1
      exact ⟨by decide, by unfold BelongsToDoc; decide⟩
    · -- The last line above has some text.
      have heq' : ["/**/\n".toList] ++ ["int x;\n".toList] = (pre ++ k :: m) ++ [x] := by
        simpa using heq
      obtain rfl := (List.cons.inj (List.append_inj' heq' rfl).2).1
      exact absurd (hmid "int x;\n".toList (by simp)) (by decide)
  have hm : Misread ["/**/\n".toList, "int x;\n".toList] :=
    ⟨[], "/**/\n".toList, ["int x;\n".toList], ['/'], rfl, by decide, by decide, by decide,
      by decide⟩
  obtain ⟨blocks, heq, -, hnone, -⟩ := @insert_complete source targets
    ["/**/\n".toList, "int x;\n".toList] [] "int f();\n".toList _ (by decide) rfl hu
  exact ⟨hu, blocks, heq, hnone (.inr hm)⟩

end HeaderOutline.DocComment
