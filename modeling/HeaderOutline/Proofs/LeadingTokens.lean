import HeaderOutline.Proofs.DeclarationKinds
import HeaderOutline.Proofs.LineTexts
/-!
# What the rules on text see of the tokens

The rules for lines that begin with `#`, for labels, linkage blocks, namespaces and enums look at
the characters of a text; the rules for declarations look at its tokens. A text that one of the
former takes begins with certain tokens, and those begin no function and no destructor.

Results:
* `Rule.tokens_of_access?`, `Rule.tokens_of_linkage?`, `Rule.tokens_of_nameSpace?`,
  `Rule.tokens_of_startsEnum`: the first tokens of what these rules take.
* `Rule.kindOf_led`: no other declaration than a constructor begins with them.
-/
namespace HeaderOutline
open Text Declaration Token

/-! ## First tokens of a text -/

/-- A word with no name character behind it is the first token. -/
theorem tokens_of_after? {word : String} {cs r : List Char} (h : after? word cs = some r)
    (hw : word.toList ≠ [] ∧ ∀ c ∈ word.toList, isNameChar c = true)
    (hr : ∀ c ∈ r.head?, isNameChar c = false) :
    tokens cs = ⟨.word, word, false⟩ :: tokens r := by
  obtain ⟨c, w, hcw⟩ := List.exists_cons_of_ne_nil hw.1
  have hname := hw.2
  rw [hcw] at hname
  have hc := hname c List.mem_cons_self
  have hstop : r.takeWhile isNameChar = [] ∧ r.dropWhile isNameChar = r := by
    cases r with
    | nil => exact ⟨rfl, rfl⟩
    | cons d r => simp [hr d rfl]
  have hx : lexeme c (w ++ r) = (.word, c :: w, r) := by
    have hall : ∀ d ∈ w, isNameChar d = true := fun d hd => hname d (List.mem_cons_of_mem _ hd)
    unfold Token.lexeme
    rw [if_pos hc, List.takeWhile_append_of_pos hall, List.dropWhile_append_of_pos hall,
      hstop.1, hstop.2, List.append_nil]
  have hn := (next?_of_lexeme (isSpace_of_isNameChar hc) hx).1
  rw [← hcw, String.ofList_toList] at hn
  rw [← append_of_after? h, hcw]
  exact tokens_of_next? hn

/-- Behind blanks comes a gap, or the token that the text goes on with. -/
theorem tokens_behind_blanks {rest r : List Char} {c : Char} (h : trimStart rest = c :: r) :
    ∃ x xs, tokens rest = x :: xs ∧ (x.isGap = true ∨
      ∃ y ys, tokens (c :: r) = y :: ys ∧ x.text = y.text) := by
  have hc : isBlank c = false := by
    rcases trimStart_eq_nil_or rest with h0 | ⟨d, r', h', hd⟩
    · rw [h0] at h; cases h
    · rw [h'] at h; cases h; exact hd
  obtain ⟨y, ys, hy, -, hgap⟩ := @tokens_of_head c r hc
  have hus := (Continues.refl (y :: ys)).spaceFirst_right hgap
  rw [← hy] at hus
  have hsplit : rest.takeWhile isBlank ++ c :: r = rest := h ▸ List.takeWhile_append_dropWhile
  have hrest := hus.blanks
    (fun d (hd : d ∈ rest.takeWhile isBlank) => List.all_eq_true.mp List.all_takeWhile d hd)
    (.inr rfl)
  rw [hsplit, hy] at hrest
  generalize htokens : tokens rest = ts at hrest
  cases hrest with
  | keep _ ht _ _ => exact ⟨_, _, rfl, .inr ⟨y, ys, hy, ht.symm⟩⟩
  | drop hg _ => exact ⟨_, _, rfl, .inl hg⟩

theorem name_of_trimStart {cs r : List Char} {c : Char} (h : trimStart cs = c :: r)
    (hc : isNameChar c = false) : ∀ d ∈ cs.head?, isNameChar d = false := by
  intro d hd
  cases cs with
  | nil => cases hd
  | cons e cs =>
    obtain rfl : e = d := Option.some.inj hd
    cases hb : isBlank e with
    | true => exact isNameChar_of_isBlank hb
    | false =>
      rw [trimStart_cons hb] at h
      rw [(List.cons.inj h).1, hc]

theorem after?_of_afterWord? {word : String} {cs r : List Char}
    (h : afterWord? word cs = some r) :
    after? word cs = some r ∧ ∀ c ∈ r.head?, isNameChar c = false := by
  obtain ⟨h1, h2⟩ := Option.filter_eq_some_iff.mp h
  refine ⟨h1, fun c hc => Bool.eq_false_iff.mpr fun hn => ?_⟩
  rw [startsWord, hc] at h2
  simp [isWordChar_of_isNameChar hn] at h2

/-! ## What the rules on text take -/

namespace Rule

theorem kindOf_untyped {ts rest : List Token} {x : Token} (ht : skip? "template" ts = none)
    (hx : (ts.dropWhile fun t => isSpecifier t.text) = x :: rest)
    (htype : type? (x :: rest) = none)
    (hne : x.text ∉ ["~", "operator", "class", "struct"]) : kindOf ts = .constructor := by
  simp only [List.mem_cons, List.not_mem_nil, or_false, not_or] at hne
  obtain ⟨f, hf⟩ := front?_plain ht
  have hck : classKey? (x :: rest) = none := by
    simp [classKey?, ClassKey.ofKeyword?, hne.2.2.1, hne.2.2.2]
  simp [kindOf, hf, hx, htype, startsWith_ne hne.1, skip?_ne hne.2.1, hck]

/-- The words that the rules on text go by, and that begin no declaration. -/
def textWords : List String :=
  ["public", "protected", "private", "extern", "namespace", "enum"]

/-- A gap or one of these words, where a declaration would begin. -/
theorem kindOf_led {t : Token} (h : t.isGap = true ∨ t.text ∈ textWords) (ts : List Token) :
    kindOf (t :: ts) = .constructor ∧
      kindOf (⟨.word, "inline", false⟩ :: t :: ts) = .constructor := by
  obtain ⟨htemplate, hspec, htype, hne⟩ : t.text ≠ "template" ∧ isSpecifier t.text = false ∧
      type? (t :: ts) = none ∧ t.text ∉ ["~", "operator", "class", "struct"] := by
    rcases h with hgap | hmem
    · have hsolid : ∀ text ∈ nativeWords, HasSolid text := by decide
      have hnative : isNative t.text = false := Bool.eq_false_iff.mpr fun h =>
        ne_of_isGap hgap (hsolid t.text (by simpa [isNative] using h)) rfl
      have hname : t.isName ≠ true := fun hn => by
        rw [isGap_of_isName hn] at hgap
        cases hgap
      have hne : ∀ text, HasSolid text → t.text ≠ text := fun _ => ne_of_isGap hgap
      refine ⟨hne _ (by decide), ?_, type?_none (hne _ (by decide)) (hne _ (by decide)) hnative
        (fun hn => absurd hn hname) ts, ?_⟩
      · simp [isSpecifier, hne "static" (by decide), hne "virtual" (by decide),
          hne "inline" (by decide), hne "constexpr" (by decide), hne "explicit" (by decide)]
      · simp [hne "~" (by decide), hne "operator" (by decide), hne "class" (by decide),
          hne "struct" (by decide)]
    · have hall : ∀ w ∈ textWords, w ≠ "template" ∧ isSpecifier w = false ∧
          isReserved w = true ∧ w ≠ "const" ∧ w ∉ ["~", "operator", "class", "struct"] := by
        decide
      obtain ⟨h1, h2, h3, h4, h5⟩ := hall _ hmem
      exact ⟨h1, h2, type?_reserved h3 h4 ts, h5⟩
  refine ⟨kindOf_untyped (skip?_ne htemplate ts) ?_ htype hne,
    kindOf_untyped (skip?_ne (by decide) _) ?_ htype hne⟩
  · rw [List.dropWhile_cons, if_neg (by simp [hspec])]
  · rw [List.dropWhile_cons, if_pos (by decide), List.dropWhile_cons, if_neg (by simp [hspec])]

theorem not_accepts_hash {className : Option String} {cs : List Char} {rule : Rule}
    (hr : rule ∈ declarationRules) : ¬ Accepts className (tokens ('#' :: cs)) rule := by
  intro h
  have htokens : tokens ('#' :: cs) = ⟨.mark, "#", false⟩ :: tokens cs :=
    tokens_of_next? (next?_of_lexeme (by decide) (by rfl)).1
  have hkind := kindOf_of_accepts (lexical_tokens _) (.refl _) h
  have htype := type?_none (t := ⟨.mark, "#", false⟩) (by decide) (by decide) (by decide)
    (by decide) (tokens cs)
  rw [htokens, kindOf_untyped (skip?_ne (by decide) _) (by rfl) htype (by decide)] at hkind
  subst hkind
  obtain ⟨name, -, hctor⟩ := h
  obtain ⟨_, h⟩ := Option.isSome_iff_exists.mp hctor
  rw [htokens] at h
  cases h

/-- A label begins with its keyword, and no parenthesis follows that. -/
theorem tokens_of_access? {cs : List Char} (h : (access? cs).isSome = true) :
    ∃ t x xs, tokens cs = t :: x :: xs ∧ t.text ∈ ["public", "protected", "private"] ∧
      x.text ≠ "(" := by
  obtain ⟨_, h⟩ := Option.isSome_iff_exists.mp h
  simp only [access?, Option.bind_eq_bind, Option.bind_eq_some_iff, Prod.exists] at h
  obtain ⟨level, r, hlevel, r2, hcolon, -⟩ := h
  obtain ⟨level', -, hl⟩ := List.exists_of_findSome?_eq_some hlevel
  obtain ⟨r', hr, heq⟩ := Option.map_eq_some_iff.mp hl
  obtain ⟨rfl, rfl⟩ := Prod.mk.inj heq
  have hcolon := (append_of_afterMark? hcolon).symm
  have hmem : level'.keyword ∈ leadingWords .access := by cases level' <;> decide
  obtain ⟨x, xs, hx, hcases⟩ := tokens_behind_blanks hcolon
  refine ⟨⟨.word, level'.keyword, false⟩, x, xs, ?_, hmem, fun hparen => ?_⟩
  · have hword := leadingWords_spec (by decide) hmem
    rw [tokens_of_after? hr hword (name_of_trimStart hcolon (by decide)), hx]
  · rcases hcases with hgap | ⟨y, ys, hy, hxy⟩
    · exact ne_of_isGap hgap (by decide) hparen
    · obtain ⟨y', ys', hy', hhead, -⟩ := @tokens_of_head ':' r2 (by decide)
      rw [hy'] at hy
      obtain ⟨rfl, rfl⟩ := List.cons.inj hy
      rw [← hxy, hparen] at hhead
      revert hhead
      decide

theorem tokens_of_linkage? {cs : List Char} (h : (linkage? cs).isSome = true) :
    ∃ t xs, tokens cs = t :: xs ∧ t.text = "extern" := by
  obtain ⟨_, h⟩ := Option.isSome_iff_exists.mp h
  simp only [linkage?, Option.bind_eq_bind, Option.bind_eq_some_iff] at h
  obtain ⟨r, hr, r2, hquote, -⟩ := h
  have hquote := (append_of_afterMark? hquote).symm
  have hword := leadingWords_spec (by decide) (show "extern" ∈ leadingWords .linkage by decide)
  exact ⟨_, _, tokens_of_after? hr hword (name_of_trimStart hquote (by decide)), rfl⟩

/-- The head of a namespace begins with its keyword, possibly behind `inline` and blanks. -/
theorem tokens_of_nameSpace? {cs : List Char} (h : (nameSpace? cs).isSome = true) :
    (∃ t xs, tokens cs = t :: xs ∧ t.text = "namespace") ∨
    ∃ x xs, tokens cs = ⟨.word, "inline", false⟩ :: x :: xs ∧
      (x.isGap = true ∨ x.text = "namespace") := by
  obtain ⟨_, h⟩ := Option.isSome_iff_exists.mp h
  simp only [nameSpace?, Option.bind_eq_bind, Option.bind_eq_some_iff] at h
  obtain ⟨r, hr, -⟩ := h
  have hspec : ∀ {word}, word ∈ leadingWords .nameSpace → _ := leadingWords_spec (by decide)
  obtain ⟨hr, hstop⟩ := after?_of_afterWord? hr
  have hword := tokens_of_after? hr (hspec (by decide)) hstop
  unfold skipInline at hr hword
  split at hword
  · next rest hinline =>
    rw [hinline] at hr
    simp only at hr
    split at hword
    · next hblank =>
      rw [if_pos hblank] at hr
      have hcons := append_of_after? hr
      obtain ⟨x, xs, hx, hcases⟩ := tokens_behind_blanks (c := 'n') (r := "amespace".toList ++ r)
        (hcons.symm.trans rfl)
      have hname : ∀ c ∈ rest.head?, isNameChar c = false := by
        intro c hc
        rw [hc] at hblank
        refine Bool.eq_false_iff.mpr fun hn => ?_
        simp [isBlank_of_isNameChar hn] at hblank
      refine .inr ⟨x, xs, by rw [tokens_of_after? hinline (hspec (by decide)) hname, hx], ?_⟩
      rcases hcases with hgap | ⟨y, ys, hy, hxy⟩
      · exact .inl hgap
      · have hword : tokens ('n' :: ("amespace".toList ++ r)) = _ := hcons ▸ hword
        rw [hword] at hy
        exact .inr (hxy.trans (congrArg Token.text (List.cons.inj hy).1).symm)
    · exact .inl ⟨_, _, hword, rfl⟩
  · exact .inl ⟨_, _, hword, rfl⟩

theorem tokens_of_startsEnum {cs : List Char} (h : startsEnum cs = true) :
    ∃ xs, tokens cs = ⟨.word, "enum", false⟩ :: xs := by
  obtain ⟨r, hr⟩ := Option.isSome_iff_exists.mp h
  obtain ⟨hr, hstop⟩ := after?_of_afterWord? hr
  have hword := leadingWords_spec (by decide) (show "enum" ∈ leadingWords .enumHead by decide)
  exact ⟨_, tokens_of_after? hr hword hstop⟩

/-- The name of a constructor is the first word that is none of its specifiers, and a parenthesis
follows it. -/
theorem paren_of_constructor? {name : String} {t : Token} {ts : List Token}
    (h : (constructor? name (t :: ts)).isSome = true)
    (ht : t.text ∉ ["explicit", "inline", "constexpr"]) :
    ∃ q rest, ts = q :: rest ∧ q.text = "(" := by
  obtain ⟨_, h⟩ := Option.isSome_iff_exists.mp h
  simp only [List.mem_cons, List.not_mem_nil, or_false] at ht
  simp only [constructor?, Option.bind_eq_bind, Option.bind_eq_some_iff, Prod.exists,
    List.dropWhile_cons, decide_eq_true_eq, if_neg ht] at h
  obtain ⟨name', r, hn, r2, hp, -⟩ := h
  obtain ⟨u, heq, -⟩ := exists_of_name? (Option.filter_eq_some_iff.mp hn).1
  obtain ⟨-, rfl⟩ := List.cons.inj heq
  obtain ⟨q, rfl, hq⟩ := skip?_eq_some.mp hp
  exact ⟨q, r2, rfl, hq⟩

/-- A text that begins with the word `enum` and a parenthesis begins with that word also for the
rule on text. -/
theorem startsEnum_of_tokens {cs : List Char} {c : Char} (hc : cs.head? = some c)
    (hb : isBlank c = false) {t q : Token} {ts : List Token} (h : tokens cs = t :: q :: ts)
    (ht : t.text = "enum") (hq : q.text = "(") : startsEnum cs = true := by
  obtain ⟨rest, hn, hrest⟩ := exists_next? h
  obtain ⟨rest', hn', -⟩ := exists_next? hrest
  have hcs := append_of_next? hn
  have hspaces : cs.takeWhile isSpace = [] := by
    cases cs with
    | nil => rfl
    | cons d cs =>
      obtain rfl : d = c := Option.some.inj hc
      rw [List.takeWhile_cons, if_neg fun hs => by rw [isBlank_of_isSpace hs] at hb; cases hb]
  rw [hspaces, List.nil_append, ht] at hcs
  have hword : startsWord rest = false := by
    have happ := append_of_next? hn'
    rw [hq] at happ
    rw [← happ, startsWord]
    cases hs : rest.takeWhile isSpace with
    | nil => exact (by decide : isWordChar '(' = false)
    | cons d ds =>
      have hd : isSpace d = true := by
        have hmem : d ∈ rest.takeWhile isSpace := hs ▸ List.mem_cons_self
        exact List.all_eq_true.mp List.all_takeWhile d hmem
      have hascii : d.toNat < 0x80 := by
        simp only [isSpace, Bool.or_eq_true, beq_iff_eq] at hd
        omega
      have hname : isNameChar d = false := Bool.eq_false_iff.mpr fun h => by
        rw [isSpace_of_isNameChar h] at hd
        cases hd
      simp [isWordChar, hascii, hname]
  rw [← hcs, startsEnum, afterWord?, after?_append, Option.filter_some, hword]
  rfl

end Rule

end HeaderOutline
