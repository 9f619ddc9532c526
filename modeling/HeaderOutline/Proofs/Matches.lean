import HeaderOutline.Proofs.DeclarationReading
import HeaderOutline.Proofs.LineTexts
import HeaderOutline.Proofs.Recognition
/-!
# Declarations are matched

Functions, constructors, destructors and class heads that are written with blanks between their
lexemes are matched by their own rules. What begins with a type is refused by every rule before
those for functions, and a constructor or destructor also by these.

Results: `match?_function`, `match?_constructor`, `match?_destructor`, `match?_classHead`.
-/
namespace HeaderOutline
open Text Declaration

def Context.holdsDeclarations (context : Context) : Prop :=
  context = .nameSpace ∨ context = .classBody

variable {context : Context} {className : Option String} {l : Lexeme} {ls : List Lexeme}
  {text : List Char}

theorem joined_cons (l : Lexeme) (ls : List Lexeme) (text : List Char) :
    joined (l :: ls) ++ text = l.chars ++ (spaced ls ++ text) :=
  List.append_assoc ..

theorem spells_joined (hl : AllPlain ls) (hp : Parted text) :
    Spells (Token.tokens text) ls (Token.tokens (joined ls ++ text)) := by
  rw [(lexes_joined hl hp).tokens]
  exact spells_tokensOf _ ls

theorem spells_joined_nil (hl : AllPlain ls) : Spells [] ls (Token.tokens (joined ls)) := by
  have h := spells_joined hl parted_nil
  rwa [List.append_nil, Token.tokens_of_next?_none rfl] at h

/-- A rule on tokens takes written lexemes when its reader takes what spells them. -/
theorem readText_some {α : Type} {read : Reader α} {make : α → Construct} {a : α}
    (hl : AllPlain ls) (hp : Parted text)
    (h : ∀ ts, Spells (Token.tokens text) ls ts → read ts = some (a, Token.tokens text)) :
    Rule.readText read make (joined ls ++ text) = some (make a, text) :=
  readText_joined hl hp (h _ (spells_tokensOf _ ls))

theorem readText_none {α : Type} {read : Reader α} {make : α → Construct} (hl : AllPlain ls)
    (hp : Parted text) (h : ∀ ts, Spells (Token.tokens text) ls ts → read ts = none) :
    Rule.readText read make (joined ls ++ text) = none :=
  readText_joined_none hl hp (h _ (spells_tokensOf _ ls))

/-! ## What begins with a word or a type -/

/-- A rule on text refuses lexemes that begin with another word than its own. -/
theorem refuses_joined {rule : Rule} (hr : rule ∈ Rule.textRules) {w : String}
    (hw : (Lexeme.word w).isPlain = true) (hk : w ∉ rule.leadingWords) (hp : Parted text) :
    Rule.recognize? className (joined (.word w :: ls) ++ text) rule = none := by
  have hc := hw
  simp only [Lexeme.isPlain, Lexeme.word, Bool.and_eq_true, List.all_eq_true] at hc
  rw [joined_cons]
  refine Rule.refuses_word hr (chars_ne_nil hw) hc.2 (parted_spaced ls hp) ?_ className
  simpa [Lexeme.chars, Lexeme.word] using hk

theorem refuses_type {rule : Rule} (hr : rule ∈ Rule.textRules) (hb : BeginsType l)
    (hp : Parted text) : Rule.recognize? className (joined (l :: ls) ++ text) rule = none := by
  have hwords : ∀ w ∈ rule.leadingWords, isReserved w = true ∧ isNative w = false ∧
      w ≠ "const" := by
    have hall : ∀ r ∈ Rule.textRules, ∀ w ∈ r.leadingWords, isReserved w = true ∧
        isNative w = false ∧ w ≠ "const" := by decide
    exact hall rule hr
  cases hb with
  | root =>
    rw [joined_cons]
    exact Rule.refuses_first hr (by decide) (by decide) className _
  | const => exact refuses_joined hr (by decide) (fun h => (hwords _ h).2.2 rfl) hp
  | native w =>
    exact refuses_joined hr (calm_native w).1.1 (fun h => w.ne (hwords _ h).2.1 rfl) hp
  | name n =>
    refine refuses_joined hr n.isPlain (fun h => ?_) hp
    have hn := n.spec.2.2.1
    rw [(hwords _ h).1] at hn
    cases hn

/-- The rules before those for functions refuse what begins with a type and is no operator. -/
theorem refuses_before_function (hl : AllPlain (l :: ls)) (hb : BeginsType l) (hp : Parted text)
    (ho : ∀ ts, Spells (Token.tokens text) (l :: ls) ts → callOperator? ts = none ∧
      operator? ts = none) : ∀ r ∈ Rule.all.takeWhile (· ≠ .function),
      Rule.recognize? className (joined (l :: ls) ++ text) r = none := by
  have hclass : ∀ ts, Spells (Token.tokens text) (l :: ls) ts → classHead? ts = none :=
    fun ts h => classHead?_eq_none fun t ht => by
      rw [h.head t ht]
      exact hb.not_frontWord
  have hlist : Rule.all.takeWhile (· ≠ .function) = [.define, .directive, .access, .linkage,
      .nameSpace, .classHead, .enumHead, .callOperator, .operator] := rfl
  intro r hr
  rw [hlist] at hr
  simp only [List.mem_cons, List.not_mem_nil, or_false] at hr
  rcases hr with rfl | rfl | rfl | rfl | rfl | rfl | rfl | rfl | rfl
  · exact refuses_type (by decide) hb hp
  · exact refuses_type (by decide) hb hp
  · exact refuses_type (by decide) hb hp
  · exact refuses_type (by decide) hb hp
  · exact refuses_type (by decide) hb hp
  · exact readText_none hl hp hclass
  · exact refuses_type (by decide) hb hp
  · rw [Rule.recognize?]
    exact readText_none hl hp fun ts h => (ho ts h).1
  · rw [Rule.recognize?]
    exact readText_none hl hp fun ts h => (ho ts h).2

/-! ## Functions -/

/-- A function is matched when it is read, with its semicolon or without. -/
theorem match?_function (className : Option String) {f : FunctionSyntax} {b : Bool}
    (hc : context.holdsDeclarations) (hl : AllPlain ls) (hp : Parted text)
    (hf : ∀ ts, Spells (Token.tokens text) (f.lexemes ++ ls) ts →
      function? ts = some (⟨f.signature, b⟩, Token.tokens text)) :
    Rule.match? context className (joined (f.lexemes ++ ls) ++ text) =
      some (.function, .function f.signature b, text) := by
  have hplain : AllPlain (f.lexemes ++ ls) := allPlain_append.mpr ⟨(calm_function f).plain, hl⟩
  obtain ⟨l, ms, htype, hb⟩ := f.type.head
  have hlex : f.lexemes ++ ls = l :: (ms ++ f.name.lexeme :: (f.params.lexemes ++
      ((constTexts f.isConst).map .word ++ ls))) := by
    simp [FunctionSyntax.lexemes, htype]
  have hread : Rule.recognize? className (joined (f.lexemes ++ ls) ++ text) .function =
      some (.function f.signature b, text) := by
    rw [Rule.recognize?, readText_some hplain hp hf]
  refine Rule.match?_of_recognize? ?_ hread fun r hr _ => ?_
  · rcases hc with rfl | rfl <;> rfl
  · rw [hlex] at hplain ⊢
    refine refuses_before_function hplain hb hp (fun ts h => ?_) r hr
    rw [← hlex] at h
    exact operators_refuse_function h

/-! ## Constructors and destructors -/

theorem match?_constructor {n : FreeName} {ps : ParameterList} (hp : Parted text) :
    Rule.match? .classBody (some n.text)
        (joined (n.lexeme :: (ps.lexemes ++ [.mark ";"])) ++ text) =
      some (.constructor, .constructor ⟨n.text, ps.values⟩ true, text) := by
  have hl : AllPlain (n.lexeme :: (ps.lexemes ++ [.mark ";"])) := by
    simp only [allPlain_cons, allPlain_append]
    exact ⟨n.isPlain, (calm_parameters ps).plain, by decide, allPlain_nil⟩
  have hread : Rule.recognize? (some n.text) (joined (n.lexeme :: (ps.lexemes ++ [.mark ";"])) ++
      text) .constructor = some (.constructor ⟨n.text, ps.values⟩ true, text) := by
    rw [Rule.recognize?, Option.bind_some, readText_some hl hp fun ts h => constructor?_spells h]
  refine Rule.match?_of_recognize? rfl hread fun r hr _ => ?_
  have hlist : Rule.all.takeWhile (· ≠ .constructor) =
      Rule.all.takeWhile (· ≠ .function) ++ [.function, .destructor] := rfl
  rw [hlist, List.mem_append] at hr
  rcases hr with hr | hr
  · exact refuses_before_function hl (.name n) hp (fun ts h => operators_refuse_constructor h) r hr
  · simp only [List.mem_cons, List.not_mem_nil, or_false] at hr
    rcases hr with rfl | rfl
    · rw [Rule.recognize?]
      exact readText_none hl hp fun ts h => function?_constructor h
    · rw [Rule.recognize?]
      refine readText_none hl hp fun ts h => ?_
      obtain ⟨t, us, rfl, -, ht, -⟩ := h.uncons
      have hall : ∀ w ∈ ["virtual", "inline", "~"], isFreeName w = false := by decide
      exact Rule.destructor?_eq_none (fun hm => n.ne (hall _ hm) ht.symm) us

theorem match?_destructor {n : FreeName} (hp : Parted text) :
    Rule.match? .classBody className
        (joined (.mark "~" :: n.lexeme :: .mark "(" :: .mark ")" :: [.mark ";"]) ++ text) =
      some (.destructor, .destructor ("~" ++ n.text) true, text) := by
  have hl : AllPlain (.mark "~" :: n.lexeme :: .mark "(" :: .mark ")" :: [.mark ";"]) := by
    simp only [allPlain_cons]
    exact ⟨by decide, n.isPlain, by decide, by decide, by decide, allPlain_nil⟩
  have hread : Rule.recognize? className (joined (.mark "~" :: n.lexeme :: .mark "(" ::
      .mark ")" :: [.mark ";"]) ++ text) .destructor =
      some (.destructor ("~" ++ n.text) true, text) := by
    rw [Rule.recognize?, readText_some hl hp fun ts h => destructor?_spells h]
  refine Rule.match?_of_recognize? rfl hread fun r hr _ => ?_
  refine Rule.refuses_declarations (fun r hr => ?_) ?_ r hr
  · rw [joined_cons]
    exact Rule.refuses_first hr (by decide) (by decide) className _
  · obtain ⟨t, us, ht, hk, htext, -⟩ := (spells_joined hl hp).uncons
    have htext : t.text = "~" := htext
    rw [ht]
    exact Rule.refuses_mark hk (by rw [htext]; decide) us

/-! ## Class heads -/

theorem match?_classHead {c : ClassSyntax} (hc : context.holdsDeclarations) (hp : Parted text)
    (ho : OpensBody (Token.tokens text)) :
    Rule.match? context className (joined c.lexemes ++ text) =
      some (.classHead, .classHead c.head, text) := by
  have hl := (calm_classHead c).plain
  have hread : Rule.recognize? className (joined c.lexemes ++ text) .classHead =
      some (.classHead c.head, text) := by
    rw [Rule.recognize?, readText_some hl hp fun ts h => classHead?_spells h ho]
  refine Rule.match?_of_recognize? ?_ hread fun r hr _ => ?_
  · rcases hc with rfl | rfl <;> rfl
  obtain ⟨w, ls, hw, hmem⟩ : ∃ w ls, c.lexemes = .word w :: ls ∧
      w ∈ ["template", "class", "struct"] := by
    obtain ⟨template, key, name⟩ := c
    cases template with
    | some t => exact ⟨_, _, rfl, by decide⟩
    | none => exact ⟨key.keyword, _, rfl, by cases key <;> decide⟩
  have hplain : (Lexeme.word w).isPlain = true := by
    rw [hw] at hl
    exact (allPlain_cons.mp hl).1
  have hlist : ∀ r ∈ Rule.all.takeWhile (· ≠ .classHead), r ∈ Rule.textRules ∧
      ∀ w ∈ ["template", "class", "struct"], w ∉ r.leadingWords := by decide
  rw [hw]
  exact refuses_joined (hlist r hr).1 hplain ((hlist r hr).2 w hmem) hp

/-! ## Labels and namespaces -/

theorem match?_label {level : AccessLevel} (hp : Parted text) :
    Rule.match? .classBody className (joined [.word level.keyword, .mark ":"] ++ text) =
      some (.access, .access level, text) := by
  have hcolon : ¬text.head? = some ':' := fun h => absurd (hp _ h) (by decide)
  have hread : Rule.recognize? className (joined [.word level.keyword, .mark ":"] ++ text) .access =
      some (.access level, text) := by
    cases level <;>
      simp [Rule.recognize?, Rule.access?, joined, spaced, Lexeme.chars, Lexeme.word, Lexeme.mark,
        AccessLevel.keyword, after?, trimStart, isBlank, afterMark?, hcolon]
  refine Rule.match?_of_recognize? rfl hread fun r hr _ => ?_
  have hlist : ∀ r ∈ Rule.all.takeWhile (· ≠ .access), r ∈ Rule.textRules ∧
      r.leadingWords = [] := by decide
  have hplain : (Lexeme.word level.keyword).isPlain = true := by cases level <;> decide
  exact refuses_joined (hlist r hr).1 hplain (by rw [(hlist r hr).2]; simp) hp

/-- The fragment goes on with an opening brace, or it ends. -/
def BraceAhead (cs : List Char) : Prop :=
  trimStart cs = [] ∨ ∃ r, trimStart cs = '\x7b' :: r

theorem laterNames_of_braceAhead (h : BraceAhead text) : Rule.laterNames text = ([], text) := by
  have ha : after? "::" (trimStart text) = none := by
    rcases h with h | ⟨r, h⟩ <;> rw [h] <;> rfl
  rw [Rule.laterNames, ha]

/-- The head of a namespace; what is left of the line may have lost its first blank. -/
theorem match?_nameSpace {name : Option FreeName} (hp : Parted text) (hb : BraceAhead text) :
    ∃ rest, Rule.match? .nameSpace className
        (joined (.word "namespace" :: name.toList.map (·.lexeme)) ++ text) =
      some (.nameSpace, .nameSpace ((name.map (·.text)).getD ""), rest) ∧
        trimStart rest = trimStart text := by
  have hnext : ¬(trimStart text).head? = some '=' := by
    rcases hb with h | ⟨r, h⟩ <;> rw [h] <;> simp
  have hskip : ∀ cs, Rule.skipInline ("namespace".toList ++ cs) = "namespace".toList ++ cs :=
    fun cs => rfl
  obtain ⟨rest, hname, htrim⟩ : ∃ rest, Rule.nameSpaceName
      (trimStart (spaced (name.toList.map (·.lexeme)) ++ text)) =
        (((name.map (·.text)).getD "").toList, rest) ∧ trimStart rest = trimStart text := by
    cases name with
    | some n =>
      refine ⟨text, ?_, rfl⟩
      have hs : trimStart (spaced [n.lexeme] ++ text) = n.text.toList ++ text := by
        obtain ⟨c, r, hc⟩ := List.exists_cons_of_ne_nil n.ne_nil
        have hb := isBlank_of_isNameChar (n.spec.2.1 c (by rw [hc]; exact List.mem_cons_self))
        have hsp : spaced [n.lexeme] ++ text = ' ' :: (n.text.toList ++ text) := by
          simp [spaced, Lexeme.chars, WordOf.lexeme, Lexeme.word]
        rw [hsp, trimStart_blank (by decide), hc, List.cons_append, trimStart_cons hb]
      have hn := name?_append n.spec.1 n.spec.2.1 hp
      simp only [Option.toList_some, List.map_cons, List.map_nil, hs, Rule.nameSpaceName, hn,
        laterNames_of_braceAhead hb, List.append_nil]
      rfl
    | none =>
      refine ⟨trimStart text, ?_, ?_⟩
      · have hn : Text.name? (trimStart text) = none := by
          rcases hb with h | ⟨r, h⟩ <;> rw [h] <;> rfl
        show Rule.nameSpaceName (trimStart text) = _
        rw [Rule.nameSpaceName, hn]
        rfl
      · rcases hb with h | ⟨r, h⟩ <;> rw [h] <;> rfl
  refine ⟨rest, Rule.match?_of_recognize? rfl ?_ fun r hr _ => ?_, htrim⟩
  · rw [Rule.recognize?, Rule.nameSpace?, joined_cons]
    show (afterWord? "namespace" (Rule.skipInline ("namespace".toList ++ _))).bind _ = _
    rw [hskip, afterWord?_append _ (parted_spaced _ hp), Option.bind_some, hname]
    simp only [htrim, if_neg hnext, String.ofList_toList]
  · have hlist : ∀ r ∈ Rule.all.takeWhile (· ≠ .nameSpace), r ∈ Rule.textRules ∧
        "namespace" ∉ r.leadingWords := by decide
    exact refuses_joined (hlist r hr).1 (by decide) (hlist r hr).2 hp

end HeaderOutline
