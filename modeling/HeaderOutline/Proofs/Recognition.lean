import HeaderOutline.Proofs.Lexemes
import HeaderOutline.Rule
/-!
# Which rule matches

A fragment is matched by a rule when that recognizes it and every earlier rule refuses it. The rules
on text, which look at characters and not at tokens, go by the first word or mark; the rules on
tokens refuse what begins with a brace, a semicolon or a tilde.

Results:
* `match?_of_recognize?`: the first rule that recognizes.
* `refuses_word`, `refuses_first`: the rules on text refuse other first words and marks.
* `refuses_mark`: the rules for declarations refuse marks.
* `refuses_delimiter`: what begins with a delimiter.
-/
namespace HeaderOutline
open Text Declaration

namespace Rule

/-- The first rule that recognizes a fragment matches it. -/
theorem match?_of_recognize? {context : Context} {className : Option String}
    {cs rest : List Char} {rule : Rule} {k : Construct} (ha : rule.appliesIn context = true)
    (hr : recognize? className cs rule = some (k, rest))
    (hn : ∀ r ∈ all.takeWhile (· ≠ rule), r.appliesIn context = true →
      recognize? className cs r = none) :
    match? context className cs = some (rule, k, rest) := by
  have hall : all = all.takeWhile (· ≠ rule) ++ rule :: (all.dropWhile (· ≠ rule)).tail := by
    cases rule <;> rfl
  rw [match?, hall, List.filter_append, List.filter_cons_of_pos ha, List.findSome?_append]
  have hnone : ((all.takeWhile (· ≠ rule)).filter (appliesIn context)).findSome?
      (fun r => (recognize? className cs r).map (r, ·)) = none := by
    refine List.findSome?_eq_none_iff.mpr fun r hr' => ?_
    rw [hn r (List.mem_filter.mp hr').1 (List.mem_filter.mp hr').2]
    rfl
  rw [hnone, List.findSome?_cons, hr]
  rfl

def textRules : List Rule :=
  [define, directive, access, linkage, nameSpace, enumHead]

/-! ## First words -/

/-- The words that a rule on text goes by. -/
def leadingWords : Rule → List String
  | access => ["public", "protected", "private"]
  | linkage => ["extern"]
  | nameSpace => ["inline", "namespace"]
  | enumHead => ["enum"]
  | _ => []

theorem leadingWords_spec {rule : Rule} (hr : rule ∈ textRules) {word : String}
    (hword : word ∈ rule.leadingWords) :
    word.toList ≠ [] ∧ ∀ c ∈ word.toList, isNameChar c = true := by
  have hall : ∀ r ∈ textRules, ∀ w ∈ r.leadingWords, w.toList ≠ [] ∧
      ∀ c ∈ w.toList, isNameChar c = true := by decide
  exact hall rule hr word hword

/-- A word in front of a text that begins with another word: they are equal, or the other one goes
on. -/
theorem after?_word {word : String} {w cs r : List Char}
    (hword : ∀ c ∈ word.toList, isNameChar c = true) (hw : ∀ c ∈ w, isNameChar c = true)
    (hp : Parted cs) (h : after? word (w ++ cs) = some r) :
    (w = word.toList ∧ r = cs) ∨ ∃ c r', r = c :: r' ∧ isNameChar c = true := by
  have ha := append_of_after? h
  rcases List.append_eq_append_iff.mp ha with ⟨as, h1, h2⟩ | ⟨as, h1, h2⟩
  · cases as with
    | nil => exact .inl ⟨by simpa using h1, by simpa using h2⟩
    | cons c as =>
      refine .inr ⟨c, as ++ cs, h2, hw c ?_⟩
      rw [h1]
      simp
  · cases as with
    | nil => exact .inl ⟨by simpa using h1.symm, by simpa using h2.symm⟩
    | cons c as =>
      have hc : c = ' ' := hp c (by rw [h2]; rfl)
      have hn := hword c (by rw [h1]; simp)
      rw [hc] at hn
      exact absurd hn (by decide)

theorem after?_other_word {word : String} {w cs r : List Char}
    (hword : ∀ c ∈ word.toList, isNameChar c = true) (hw : ∀ c ∈ w, isNameChar c = true)
    (hp : Parted cs) (hne : String.ofList w ≠ word) (h : after? word (w ++ cs) = some r) :
    ∃ c r', r = c :: r' ∧ isNameChar c = true := by
  rcases after?_word hword hw hp h with ⟨hw', -⟩ | hc
  · exact absurd (by rw [hw', String.ofList_toList]) hne
  · exact hc

theorem afterWord?_other_word {word : String} {w cs : List Char}
    (hword : ∀ c ∈ word.toList, isNameChar c = true) (hw : ∀ c ∈ w, isNameChar c = true)
    (hp : Parted cs) (hne : String.ofList w ≠ word) : afterWord? word (w ++ cs) = none :=
  afterWord?_other hword hw hp.startsWord fun he => hne (by rw [he, String.ofList_toList])

/-- A rule on text refuses what begins with another word than its own. -/
theorem refuses_word {rule : Rule} (hr : rule ∈ textRules) {w cs : List Char} (hne : w ≠ [])
    (hw : ∀ c ∈ w, isNameChar c = true) (hp : Parted cs)
    (hk : String.ofList w ∉ rule.leadingWords) (className : Option String) :
    recognize? className (w ++ cs) rule = none := by
  obtain ⟨c, w', rfl⟩ := List.exists_cons_of_ne_nil hne
  have hc := hw c List.mem_cons_self
  have hhash : c ≠ '#' := by rintro rfl; revert hc; decide
  have hmark : afterMark? '#' (c :: w' ++ cs) = none := by simp [afterMark?, hhash]
  have hother : ∀ word ∈ rule.leadingWords, String.ofList (c :: w') ≠ word := fun word hword he =>
    hk (he ▸ hword)
  have hchars : ∀ word ∈ rule.leadingWords, ∀ d ∈ word.toList, isNameChar d = true :=
    fun word hword => (leadingWords_spec hr hword).2
  simp only [textRules, List.mem_cons, List.not_mem_nil, or_false] at hr
  rcases hr with rfl | rfl | rfl | rfl | rfl | rfl
  · simp only [recognize?, define?, hmark]
    rfl
  · simp only [recognize?, directive?, hmark]
    rfl
  · unfold recognize? access?
    cases hf : [AccessLevel.isPublic, .isProtected, .isPrivate].findSome? fun level =>
        (after? level.keyword (c :: w' ++ cs)).map (level, ·) with
    | none => rfl
    | some found =>
      obtain ⟨level, r⟩ := found
      obtain ⟨level', -, hl⟩ := List.exists_of_findSome?_eq_some hf
      obtain ⟨r', hr, heq⟩ := Option.map_eq_some_iff.mp hl
      obtain ⟨rfl, rfl⟩ := Prod.mk.inj heq
      have hmem : level'.keyword ∈ leadingWords .access := by cases level' <;> decide
      obtain ⟨d, r, rfl, hd⟩ := after?_other_word (hchars _ hmem) hw hp (hother _ hmem) hr
      have hcolon : d ≠ ':' := by rintro rfl; revert hd; decide
      simp [trimStart, isBlank_of_isNameChar hd, afterMark?, hcolon]
  · unfold recognize? linkage?
    cases hf : after? "extern" (c :: w' ++ cs) with
    | none => rfl
    | some r =>
      obtain ⟨d, r, rfl, hd⟩ :=
        after?_other_word (hchars _ (by decide)) hw hp (hother _ (by decide)) hf
      have hquote : d ≠ '\x22' := by rintro rfl; revert hd; decide
      simp [trimStart, isBlank_of_isNameChar hd, afterMark?, hquote]
  · have hskip : skipInline (c :: w' ++ cs) = c :: w' ++ cs := by
      unfold skipInline
      split
      · next rest hf =>
        obtain ⟨d, r, rfl, hd⟩ :=
          after?_other_word (hchars _ (by decide)) hw hp (hother _ (by decide)) hf
        simp [isBlank_of_isNameChar hd]
      · rfl
    have hn := afterWord?_other_word (hchars "namespace" (by decide)) hw hp (hother _ (by decide))
    unfold recognize? nameSpace?
    rw [hskip, hn]
    rfl
  · have hn := afterWord?_other_word (hchars "enum" (by decide)) hw hp (hother _ (by decide))
    unfold recognize? startsEnum
    rw [hn]
    rfl

/-! ## First marks -/

theorem after?_mark {word : String} {c : Char} {cs : List Char}
    (hword : ∀ d ∈ word.toList, isNameChar d = true) (hne : word.toList ≠ [])
    (hc : isNameChar c = false) : after? word (c :: cs) = none := by
  cases h : after? word (c :: cs) with
  | none => rfl
  | some r =>
    have ha := append_of_after? h
    obtain ⟨d, w, hw⟩ := List.exists_cons_of_ne_nil hne
    rw [hw, List.cons_append] at ha
    have hd := hword d (hw ▸ List.mem_cons_self)
    rw [(List.cons.inj ha).1, hc] at hd
    cases hd

/-- The rules on text refuse what begins with a mark other than `#`. -/
theorem refuses_first {rule : Rule} (hr : rule ∈ textRules) {c : Char} (hc : isNameChar c = false)
    (hhash : c ≠ '#') (className : Option String) (cs : List Char) :
    recognize? className (c :: cs) rule = none := by
  have hmark : afterMark? '#' (c :: cs) = none := by simp [afterMark?, hhash]
  have hn : ∀ word ∈ rule.leadingWords, after? word (c :: cs) = none := fun word hword =>
    have hs := leadingWords_spec hr hword
    after?_mark hs.2 hs.1 hc
  simp only [textRules, List.mem_cons, List.not_mem_nil, or_false] at hr
  rcases hr with rfl | rfl | rfl | rfl | rfl | rfl
  · simp only [recognize?, define?, hmark]
    rfl
  · simp only [recognize?, directive?, hmark]
    rfl
  · have h1 : ([AccessLevel.isPublic, .isProtected, .isPrivate].findSome? fun level =>
        (after? level.keyword (c :: cs)).map (level, ·)) = none := by
      refine List.findSome?_eq_none_iff.mpr fun level _ => ?_
      rw [hn _ (by cases level <;> decide)]
      rfl
    unfold recognize? access?
    rw [h1]
    rfl
  · unfold recognize? linkage?
    rw [hn _ (by decide)]
    rfl
  · unfold recognize? nameSpace? skipInline
    rw [hn "inline" (by decide)]
    simp only [afterWord?, hn "namespace" (by decide)]
    rfl
  · unfold recognize? startsEnum
    rw [afterWord?, hn _ (by decide)]
    rfl

/-! ## Declarations -/

/-- The readers of declarations refuse the tokens. -/
structure RefusesDeclarations (ts : List Token) : Prop where
  classHead : classHead? ts = none
  callOperator : callOperator? ts = none
  operator : operator? ts = none
  function : function? ts = none
  constructor : ∀ name, constructor? name ts = none

/-- Marks that begin no declaration but a destructor. -/
def bareMarks : List String :=
  ["\x7b", "\x7d", ";", "~"]

theorem refuses_mark {t : Token} (hk : t.kind = .mark) (ht : t.text ∈ bareMarks)
    (ts : List Token) : RefusesDeclarations (t :: ts) := by
  have hname : t.isName = false := by rw [Token.isName, hk]; rfl
  have hwords : ∀ m ∈ bareMarks, m ∉ ["template", "static", "virtual", "inline", "constexpr",
      "explicit", "const", "::", "operator", "class", "struct"] ∧ isNative m = false := by decide
  obtain ⟨hw, hnative⟩ := hwords _ ht
  simp only [List.mem_cons, List.not_mem_nil, or_false, not_or] at hw
  obtain ⟨h1, h2, h3, h4, h5, h6, h7, h8, h9, h10, h11⟩ := hw
  have htemplate : templateHead? (t :: ts) = some (none, t :: ts) := by
    simp [templateHead?, skip?, h1]
  have hfront : front? (t :: ts) = some (⟨none, false, false⟩, t :: ts) := by
    simp [front?, htemplate, specifiers, h2, h3, h4, h5, h6]
  have htype : type? (t :: ts) = none := by
    rw [type?]
    simp [typeFront?, bareType?, qualifiedName?, freeName?, Declaration.name?, skipOptional, skip?,
      startsWith, h7, h8, hnative, hname]
  have hkey : classKey? (t :: ts) = none := by simp [classKey?, ClassKey.ofKeyword?, h10, h11]
  refine ⟨?_, ?_, ?_, ?_, fun name => ?_⟩
  · simp [classHead?, htemplate, hkey]
  · simp [callOperator?, hfront, htype]
  · simp [operator?, operatorType, hfront, htype, skip?, h9]
  · simp [function?, hfront, htype]
  · simp [constructor?, h4, h5, h6, Declaration.name?, hname]

/-- What all rules on text and all readers of declarations refuse. -/
theorem refuses_declarations {className : Option String} {cs : List Char}
    (ht : ∀ r ∈ textRules, recognize? className cs r = none)
    (hd : RefusesDeclarations (Token.tokens cs)) :
    ∀ r ∈ all.takeWhile (· ≠ .destructor), recognize? className cs r = none := by
  have hlist : all.takeWhile (· ≠ .destructor) = [.define, .directive, .access, .linkage,
      .nameSpace, .classHead, .enumHead, .callOperator, .operator, .function] := rfl
  intro r hr
  rw [hlist] at hr
  simp only [List.mem_cons, List.not_mem_nil, or_false] at hr
  rcases hr with rfl | rfl | rfl | rfl | rfl | rfl | rfl | rfl | rfl | rfl
  · exact ht _ (by decide)
  · exact ht _ (by decide)
  · exact ht _ (by decide)
  · exact ht _ (by decide)
  · exact ht _ (by decide)
  · simp [recognize?, readText, hd.classHead]
  · exact ht _ (by decide)
  · simp [recognize?, readText, hd.callOperator]
  · simp [recognize?, readText, hd.operator]
  · simp [recognize?, readText, hd.function]

theorem destructor?_eq_none {t : Token} (h : t.text ∉ ["virtual", "inline", "~"])
    (ts : List Token) : destructor? (t :: ts) = none := by
  simp only [List.mem_cons, List.not_mem_nil, or_false, not_or] at h
  simp [destructor?, skip?, h]

/-! ## Delimiters -/

theorem next?_delimiter {d : Char} (hd : d ∈ ['\x7b', '\x7d', ';']) (cs : List Char) :
    Token.next? (d :: cs) = some (⟨.mark, String.ofList [d], false⟩, cs) := by
  have hx : Token.lexeme d cs = (.mark, [d], cs) := by
    unfold Token.lexeme
    simp only [List.mem_cons, List.not_mem_nil, or_false] at hd
    rcases hd with rfl | rfl | rfl <;> rfl
  have hs : isSpace d = false := by
    simp only [List.mem_cons, List.not_mem_nil, or_false] at hd
    rcases hd with rfl | rfl | rfl <;> decide
  exact (next?_of_lexeme hs hx).1

/-- Only the rules for delimiters recognize what begins with one. -/
theorem refuses_delimiter {d : Char} (hd : d ∈ ['\x7b', '\x7d', ';']) (className : Option String)
    (cs : List Char) : ∀ r ∈ all.takeWhile (· ≠ .openBrace),
      recognize? className (d :: cs) r = none := by
  have hc : isNameChar d = false ∧ d ≠ '#' ∧ String.ofList [d] ∈ bareMarks ∧
      String.ofList [d] ∉ ["virtual", "inline", "~"] := by
    simp only [List.mem_cons, List.not_mem_nil, or_false] at hd
    rcases hd with rfl | rfl | rfl <;> decide
  obtain ⟨hname, hhash, hbare, hdtor⟩ := hc
  have htokens := Token.tokens_of_next? (next?_delimiter hd cs)
  have ht : ∀ r ∈ textRules, recognize? className (d :: cs) r = none := fun r hr =>
    refuses_first hr hname hhash className cs
  have hr := refuses_mark (t := ⟨.mark, String.ofList [d], false⟩) rfl hbare (Token.tokens cs)
  rw [← htokens] at hr
  have hdestructor := destructor?_eq_none (t := ⟨.mark, String.ofList [d], false⟩) hdtor
    (Token.tokens cs)
  rw [← htokens] at hdestructor
  have hlist : all.takeWhile (· ≠ .openBrace) =
      all.takeWhile (· ≠ .destructor) ++ [.destructor, .constructor] := rfl
  intro r hmem
  rw [hlist, List.mem_append] at hmem
  rcases hmem with hmem | hmem
  · exact refuses_declarations ht hr r hmem
  · simp only [List.mem_cons, List.not_mem_nil, or_false] at hmem
    rcases hmem with rfl | rfl
    · simp [recognize?, readText, hdestructor]
    · simp [recognize?, readText, hr.constructor]

end Rule

end HeaderOutline
