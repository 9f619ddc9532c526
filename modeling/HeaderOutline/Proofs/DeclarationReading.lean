import HeaderOutline.Declaration.Callable
import HeaderOutline.Declaration.ClassHead
import HeaderOutline.Proofs.CalmLexemes
import HeaderOutline.Proofs.TypeReading
/-!
# Declarations are read back

The lexemes of parameter lists, functions, constructors, destructors and class heads are read as
these. A declaration without a semicolon is read where a body or the end of the fragment follows.

Results:
* `function?_declared`, `function?_defined`: functions.
* `constructor?_spells`, `destructor?_spells`: constructors and destructors.
* `classHead?_spells`: class heads.
* `operators_refuse`, `classHead?_eq_none`, `function?_constructor`: what is no operator, no class
  and no function.
-/
namespace HeaderOutline
open Text Declaration

variable {rest ts : List Token} {ls : List Lexeme}

/-! ## Parameters -/

theorem skipAssigned_of_head (close : String) (h : ∀ t ∈ ts.head?, t.text ≠ "=") :
    skipAssigned close ts = ts := by
  have hs : skip? "=" ts = none := by
    cases ts with
    | nil => rfl
    | cons t ts => exact if_neg (h t rfl)
  simp only [skipAssigned, hs]

theorem freeName?_mark {mark : String} (h : Spells rest (.mark mark :: ls) ts) :
    freeName? ts = none := by
  obtain ⟨t, us, rfl, hk, -, -⟩ := h.uncons
  have hn : t.isName = false := by rw [Token.isName, hk]; rfl
  simp [freeName?, Declaration.name?, hn]

theorem parameter?_spells {p : ParameterSyntax} {mid : List Token} {mark : String}
    (hm : mark ∈ [",", ")"]) (h2 : Spells rest (.mark mark :: ls) mid)
    (h1 : Spells mid p.lexemes ts) : parameter? ts = some (p.value, mid) := by
  have hassigned : skipAssigned ")" mid = mid := skipAssigned_of_head _ fun t ht he => by
    have hmark : t.text = mark := h2.head t ht
    rw [← hmark, he] at hm
    revert hm
    decide
  cases p with
  | variadic =>
    obtain ⟨us, hu, hs⟩ := h1.skip?_self
    have hs : skip? "..." ts = some us := hs
    simp only [parameter?, hs, hu.eq_of_nil]
    rfl
  | typed t name =>
    obtain ⟨l, ms, hl, hb⟩ := t.head
    have hdots : skip? "..." ts = none := by
      have h := h1
      rw [ParameterSyntax.lexemes, hl] at h
      exact h.skip?_ne (hb.ne (by decide))
    obtain ⟨us, ht, hn⟩ := h1.split
    cases name with
    | none =>
      have hu : us = mid := hn.eq_of_nil
      subst hu
      have hends : ∀ m ∈ [",", ")"], m ∈ endMarks := by decide
      have htype := type?_spells t ht (endsType_of_mark (hends mark hm) h2)
      simp only [parameter?, hdots, htype, Option.map_some, parameterName, freeName?_mark h2,
        hassigned]
      rfl
    | some n =>
      have hend : EndsType us := endsType_of_spells hn ⟨fun hmem => ?_, n.spec.2.2.2⟩
      · obtain ⟨vs, hv, hf⟩ := freeName?_spells hn
        simp only [parameter?, hdots, type?_spells t ht hend, Option.map_some, parameterName, hf,
          hv.eq_of_nil, hassigned]
        rfl
      · have hall : ∀ m ∈ ["::", "<", "*", "&"], isFreeName m = false := by decide
        exact n.ne (hall _ hmem) rfl

theorem ParameterSyntax.head (p : ParameterSyntax) : ∃ l ms, p.lexemes = l :: ms ∧
    (l = .mark "..." ∨ BeginsType l) ∧ ∀ m ∈ ms, m.text ≠ ")" := by
  cases p with
  | variadic => exact ⟨_, [], rfl, .inl rfl, by simp⟩
  | typed t name =>
    obtain ⟨l, ms, hl, hb⟩ := t.head
    refine ⟨l, ms ++ name.toList.map (·.lexeme), by rw [lexemes, hl]; rfl, .inr hb, ?_⟩
    intro m hm
    rcases List.mem_append.mp hm with hm | hm
    · exact (TypeLexeme.all_type t m (by rw [hl]; exact List.mem_cons_of_mem _ hm)).ne_close
    · obtain ⟨n, -, rfl⟩ := List.mem_map.mp hm
      exact n.ne (by decide)

theorem parameters?_spells {ps : ParameterList}
    (h : Spells rest (commas (ps.items.map (·.lexemes)) ++ .mark ")" :: ls) ts) :
    ∃ r, Spells rest ls r ∧ parameters? ts = some (ps.values, r) := by
  obtain ⟨items, hvoid⟩ := ps
  cases items with
  | nil =>
    obtain ⟨r, hr, hs⟩ := h.skip?_self
    have hs : skip? ")" ts = some r := hs
    refine ⟨r, hr, ?_⟩
    simp only [parameters?, hs, Option.some_or]
    rfl
  | cons p items =>
    obtain ⟨r, hr, hlist⟩ : ∃ r, Spells rest ls r ∧
        commaList parameter? ")" ts = some ((p :: items).map ParameterSyntax.value, r) :=
      commaList_spells advances_parameter? (by decide) (by simp)
        (fun _ _ _ hm _ _ _ h2 h1 => parameter?_spells hm h2 h1) h
    refine ⟨r, hr, ?_⟩
    obtain ⟨l, ms, hl, hb, hms⟩ := p.head
    have hclose : l.text ≠ ")" := by
      rcases hb with rfl | hb
      · decide
      · exact hb.ne (by decide)
    -- The list is not just `void`, so `void` goes on with something else than the end.
    have hnovoid : (skip? "void" ts).bind (skip? ")") = none := by
      rw [List.map_cons, commas_cons, hl] at h
      obtain ⟨us, hu, hs⟩ := h.skip?
      rw [hs]
      split
      · next htext =>
        rw [Option.bind_some]
        cases ms with
        | cons m ms => exact hu.skip?_ne (hms m List.mem_cons_self)
        | nil =>
          cases items with
          | nil =>
            have hkind : l = .word "void" := by
              rcases hb with rfl | hb
              · exact absurd htext (by decide)
              · exact hb.eq_word (by decide) htext
            exact absurd (by rw [List.map_singleton, hl, hkind]) hvoid
          | cons q items => exact hu.skip?_ne (by decide)
      · rfl
    have hnone : (skip? ")" ts).or ((skip? "void" ts).bind (skip? ")")) = none := by
      rw [List.map_cons, commas_cons, hl] at h
      rw [h.skip?_ne hclose, hnovoid]
      rfl
    simp only [parameters?, hnone, hlist]
    rfl

/-! ## Tails -/

def tailWords : List String :=
  ["const", "override", "final", "noexcept", "throw", "="]

theorem qualifiers?_stop (b : Bool) (h : ∀ t ∈ ts.head?, t.text ∉ tailWords) :
    qualifiers? false 0 b ts = some (b, ts) := by
  cases ts with
  | nil => rfl
  | cons t ts =>
    have ht := h t rfl
    simp only [tailWords, List.mem_cons, List.not_mem_nil, or_false, not_or] at ht
    simp [qualifiers?, ht]

theorem specifier_none (h : ∀ t ∈ ts.head?, t.text ∉ tailWords) : specifier ts = (none, ts) := by
  unfold specifier
  split
  · next e s us =>
    rw [if_neg]
    intro he
    exact h e rfl (by rw [he]; decide)
  · rfl

theorem qualifiers?_const {c : Bool} (h : Spells rest ((constTexts c).map .word) ts)
    (hr : ∀ t ∈ rest.head?, t.text ∉ tailWords) :
    qualifiers? false 0 false ts = some (c, rest) := by
  cases c with
  | false => rw [h.eq_of_nil, qualifiers?_stop false hr]
  | true =>
    obtain ⟨t, us, rfl, -, ht, h⟩ := h.uncons
    have ht : t.text = "const" := ht
    rw [h.eq_of_nil, ← qualifiers?_stop true hr]
    simp [qualifiers?, ht]

theorem tail?_declared {c : Bool} (h : Spells rest ((constTexts c).map .word ++ [.mark ";"]) ts) :
    tail? ts = some (⟨c, none, true⟩, rest) := by
  obtain ⟨mid, h1, h2⟩ := h.split
  have hmid : ∀ t ∈ mid.head?, t.text ∉ tailWords := fun t ht => by rw [h2.head t ht]; decide
  obtain ⟨us, hu, hs⟩ := h2.skip?_self
  have hs : skip? ";" mid = some us := hs
  simp only [tail?, qualifiers?_const h1 hmid, specifier_none hmid, hs, hu.eq_of_nil]

/-- An opening brace or the end of the fragment. -/
def OpensBody (ts : List Token) : Prop :=
  ∀ t ∈ ts.head?, t.text = "\x7b"

theorem tail?_defined {c : Bool} (h : Spells rest ((constTexts c).map .word) ts)
    (hr : OpensBody rest) : tail? ts = some (⟨c, none, false⟩, rest) := by
  have hrest : ∀ t ∈ rest.head?, t.text ∉ tailWords := fun t ht => by rw [hr t ht]; decide
  have hs : skip? ";" rest = none := by
    cases rest with
    | nil => rfl
    | cons t rest => exact if_neg (by rw [hr t rfl]; decide)
  have ho : opensBody rest = true := by
    cases rest with
    | nil => rfl
    | cons t rest => rw [opensBody, hr t rfl]; rfl
  simp only [tail?, qualifiers?_const h hrest, specifier_none hrest, hs, ho, if_true]

/-! ## Functions -/

/-- The words that a declaration may have in front of its type, and those that other declarations
begin with. -/
def frontWords : List String :=
  ["template", "static", "virtual", "inline", "constexpr", "explicit", "class", "struct",
    "operator"]

theorem front?_none (h : ∀ t ∈ ts.head?, t.text ∉ frontWords) :
    front? ts = some (⟨none, false, false⟩, ts) := by
  cases ts with
  | nil => rfl
  | cons t ts =>
    have ht := h t rfl
    simp only [frontWords, List.mem_cons, List.not_mem_nil, or_false, not_or] at ht
    simp [front?, templateHead?, specifiers, skip?, ht]

theorem classHead?_eq_none (h : ∀ t ∈ ts.head?, t.text ∉ frontWords) : classHead? ts = none := by
  cases ts with
  | nil => rfl
  | cons t ts =>
    have ht := h t rfl
    simp only [frontWords, List.mem_cons, List.not_mem_nil, or_false, not_or] at ht
    simp [classHead?, templateHead?, classKey?, ClassKey.ofKeyword?, skip?, ht]

theorem BeginsType.not_frontWord {l : Lexeme} (h : BeginsType l) : l.text ∉ frontWords := by
  intro hm
  have hall : ∀ w ∈ frontWords, w ≠ "::" ∧ w ≠ "const" ∧ isNative w = false ∧
      isFreeName w = false := by decide
  exact h.ne (hall _ hm) rfl

/-- A type in front of the tokens is no word that another declaration begins with. -/
theorem head_of_type {t : TypeSyntax} (h : Spells rest (t.lexemes ++ ls) ts) :
    ∀ u ∈ ts.head?, u.text ∉ frontWords := by
  obtain ⟨l, ms, hl, hb⟩ := t.head
  rw [hl] at h
  intro u hu
  rw [h.head u hu]
  exact hb.not_frontWord

/-- A type in front is no operator when the word `operator` does not follow it. -/
theorem operators_refuse {t : TypeSyntax} (h : Spells rest (t.lexemes ++ ls) ts)
    (hend : ∀ us, Spells rest ls us → EndsType us ∧ skip? "operator" us = none) :
    callOperator? ts = none ∧ operator? ts = none := by
  have hhead := head_of_type h
  obtain ⟨us, ht, hu⟩ := h.split
  obtain ⟨he, hs⟩ := hend us hu
  have htype := type?_spells t ht he
  have hfirst : skip? "operator" ts = none := by
    cases ts with
    | nil => rfl
    | cons u ts =>
      exact if_neg fun heq => hhead u rfl (by rw [heq]; decide)
  constructor
  · simp [callOperator?, front?_none hhead, htype, hs]
  · simp [operator?, front?_none hhead, operatorType, htype, startsWith, hs, hfirst]

theorem endsType_of_name {n : FreeName} (h : Spells rest (n.lexeme :: ls) ts) : EndsType ts := by
  have hall : ∀ m ∈ ["::", "<", "*", "&"], isFreeName m = false := by decide
  exact endsType_of_spells h ⟨fun hm => n.ne (hall _ hm) rfl, n.spec.2.2.2⟩

theorem operators_refuse_function {f : FunctionSyntax} (h : Spells rest (f.lexemes ++ ls) ts) :
    callOperator? ts = none ∧ operator? ts = none := by
  rw [FunctionSyntax.lexemes, List.append_assoc] at h
  exact operators_refuse h fun us hu => ⟨endsType_of_name hu, hu.skip?_ne (f.name.ne (by decide))⟩

theorem parametersAndTail?_of_tail {ps : ParameterList} {tail : Tail} {mid : List Token}
    (h : Spells rest (ps.lexemes ++ ls) ts)
    (ht : ∀ us, Spells rest ls us → tail? us = some (tail, mid)) :
    ∃ us, skip? "(" ts = some us ∧ parametersAndTail? us = some ((ps.values, tail), mid) := by
  obtain ⟨us, hu, hs⟩ := h.skip?_self
  have hs : skip? "(" ts = some us := hs
  rw [List.append_eq, List.append_assoc] at hu
  obtain ⟨r, hr, hp⟩ := parameters?_spells hu
  exact ⟨us, hs, by simp [parametersAndTail?, hp, ht r hr]⟩

theorem function?_of_tail {f : FunctionSyntax} {b : Bool} {mid : List Token}
    (h : Spells rest (f.lexemes ++ ls) ts)
    (ht : ∀ us, Spells rest ((constTexts f.isConst).map .word ++ ls) us →
      tail? us = some (⟨f.isConst, none, b⟩, mid)) :
    function? ts = some (⟨f.signature, b⟩, mid) := by
  rw [FunctionSyntax.lexemes, List.append_assoc] at h
  have hfront := front?_none (head_of_type h)
  obtain ⟨us, h1, h2⟩ := h.split
  have htype := type?_spells f.type h1 (endsType_of_name h2)
  rw [List.cons_append, List.append_assoc] at h2
  obtain ⟨vs, hv, hname⟩ := qualifiedName?_name h2 (by decide)
  obtain ⟨ws, hs, hp⟩ := parametersAndTail?_of_tail hv ht
  simp only [function?, Option.bind_eq_bind, hfront, htype, hname, hs, hp, Option.bind_some]
  rfl

/-- A function with a semicolon. -/
theorem function?_declared {f : FunctionSyntax} (h : Spells rest (f.lexemes ++ [.mark ";"]) ts) :
    function? ts = some (⟨f.signature, true⟩, rest) :=
  function?_of_tail h fun _ => tail?_declared

/-- A function before its body. -/
theorem function?_defined {f : FunctionSyntax} (h : Spells rest f.lexemes ts)
    (hr : OpensBody rest) : function? ts = some (⟨f.signature, false⟩, rest) := by
  rw [← List.append_nil f.lexemes] at h
  refine function?_of_tail h fun us hu => tail?_defined ?_ hr
  rwa [List.append_nil] at hu

/-! ## Constructors and destructors -/

variable {n : FreeName}

def classType (n : FreeName) : TypeSyntax :=
  .plain false (.named ⟨false, n, []⟩) ⟨0, 0⟩

/-- A constructor is no function: no name follows the type. -/
theorem function?_constructor (h : Spells rest (n.lexeme :: .mark "(" :: ls) ts) :
    function? ts = none := by
  have h' : Spells rest ((classType n).lexemes ++ .mark "(" :: ls) ts := h
  have hfront := front?_none (head_of_type h')
  obtain ⟨us, h1, h2⟩ := h'.split
  have htype := type?_spells (classType n) h1 (endsType_of_mark (by decide) h2)
  have hname : qualifiedName? us = none := by
    have hs : skip? "::" us = none := h2.skip?_ne (by decide)
    simp [qualifiedName?, skipOptional, hs, freeName?_mark h2]
  simp [function?, hfront, htype, hname]

theorem operators_refuse_constructor (h : Spells rest (n.lexeme :: .mark "(" :: ls) ts) :
    callOperator? ts = none ∧ operator? ts = none := by
  have h' : Spells rest ((classType n).lexemes ++ .mark "(" :: ls) ts := h
  exact operators_refuse h' fun us hu =>
    ⟨endsType_of_mark (by decide) hu, hu.skip?_ne (by decide)⟩

theorem constructor?_spells {ps : ParameterList}
    (h : Spells rest (n.lexeme :: (ps.lexemes ++ [.mark ";"])) ts) :
    constructor? n.text ts = some (⟨⟨n.text, ps.values⟩, true⟩, rest) := by
  obtain ⟨us, hu, hn⟩ := name?_spells h
  obtain ⟨vs, hs, hp⟩ := parametersAndTail?_of_tail hu fun _ hv => tail?_declared (c := false) hv
  have hdrop : ts.dropWhile (fun t => decide (t.text = "explicit" ∨ t.text = "inline" ∨
      t.text = "constexpr")) = ts := by
    obtain ⟨t, ts, rfl, -, ht, -⟩ := h.uncons
    have ht : t.text = n.text := ht
    have h1 : n.text ≠ "explicit" := n.ne (by decide)
    have h2 : n.text ≠ "inline" := n.ne (by decide)
    have h3 : n.text ≠ "constexpr" := n.ne (by decide)
    rw [List.dropWhile_cons, if_neg (by simp [ht, h1, h2, h3])]
  simp only [constructor?, hdrop, hn, Option.bind_eq_bind, Option.filter_some, decide_true, if_true,
    Option.bind_some, hs, hp]

theorem destructor?_spells
    (h : Spells rest (.mark "~" :: n.lexeme :: .mark "(" :: .mark ")" :: [.mark ";"]) ts) :
    destructor? ts = some (⟨"~" ++ n.text, true⟩, rest) := by
  have hdrop : ts.dropWhile (fun t => decide (t.text = "virtual" ∨ t.text = "inline")) = ts := by
    obtain ⟨t, ts, rfl, -, ht, -⟩ := h.uncons
    have ht : t.text = "~" := ht
    rw [List.dropWhile_cons, if_neg (by simp [ht])]
  obtain ⟨r1, h1, hs1⟩ := h.skip?_self
  have hs1 : skip? "~" ts = some r1 := hs1
  obtain ⟨r2, h2, hn⟩ := name?_spells h1
  obtain ⟨r3, h3, hs3⟩ := h2.skip?_self
  have hs3 : skip? "(" r2 = some r3 := hs3
  obtain ⟨r4, h4, hs4⟩ := h3.skip?_self
  have hs4 : skip? ")" r3 = some r4 := hs4
  have hvoid : skip? "void" r3 = none := h3.skip?_ne (by decide)
  have htail := tail?_declared (c := false) h4
  simp only [destructor?, hdrop, hs1, hn, hs3, skipOptional, hvoid, Option.getD_none, hs4, htail,
    Option.bind_eq_bind, Option.bind_some]

/-! ## Class heads -/

theorem templateItem?_spells {mid : List Token} {mark : String} (hm : mark ∈ [",", ">"])
    (h2 : Spells rest (.mark mark :: ls) mid)
    (h1 : Spells mid [.word "typename", n.lexeme] ts) :
    templateItem? ts = some (n.text, mid) := by
  have hassigned : skipAssigned ">" mid = mid := skipAssigned_of_head _ fun t ht he => by
    have hmark : t.text = mark := h2.head t ht
    rw [← hmark, he] at hm
    revert hm
    decide
  obtain ⟨us, hu, hs⟩ := h1.skip?_self
  have hs : skip? "typename" ts = some us := hs
  obtain ⟨vs, hv, hn⟩ := name?_spells hu
  simp only [templateItem?, hs, Option.some_or, hn, hv.eq_of_nil, Option.map_some, hassigned]

theorem templateHead?_spells {t : TemplateSyntax} (h : Spells rest (t.lexemes ++ ls) ts) :
    ∃ us, Spells rest ls us ∧ templateHead? ts = some (some t.value, us) := by
  obtain ⟨r1, h1, hs1⟩ := h.skip?_self
  have hs1 : skip? "template" ts = some r1 := hs1
  obtain ⟨r2, h2, hs2⟩ := h1.skip?_self
  have hs2 : skip? "<" r1 = some r2 := hs2
  have hne : skip? ">" r2 = none := by
    rw [List.append_eq, List.map_cons, commas_cons] at h2
    exact h2.skip?_ne (by decide)
  rw [List.append_eq, List.append_assoc] at h2
  obtain ⟨us, hu, hl⟩ : ∃ us, Spells rest ls us ∧
      commaList templateItem? ">" r2 = some ((t.first :: t.later).map (·.text), us) :=
    commaList_spells advances_templateItem? (by decide) (by simp)
      (fun _ _ _ hm _ _ _ h4 h3 => templateItem?_spells hm h4 h3) h2
  refine ⟨us, hu, ?_⟩
  simp only [templateHead?, hs1, hs2, hne, hl, Option.map_some]
  rfl

/-- The head of a class before its body. -/
theorem classHead?_spells {c : ClassSyntax} (h : Spells rest c.lexemes ts) (hr : OpensBody rest) :
    classHead? ts = some (c.head, rest) := by
  obtain ⟨template, key, name⟩ := c
  obtain ⟨us, hu, ht⟩ : ∃ us, Spells rest [.word key.keyword, name.lexeme] us ∧
      templateHead? ts = some (template.map (·.value), us) := by
    cases template with
    | none =>
      have hkey : key.keyword ≠ "template" := by cases key <;> decide
      have hs : skip? "template" ts = none := h.skip?_ne hkey
      exact ⟨ts, h, by simp only [templateHead?, hs]; rfl⟩
    | some t => exact templateHead?_spells h
  obtain ⟨k, vs, rfl, -, hk, hv⟩ := hu.uncons
  have hkey : ClassKey.ofKeyword? k.text = some key := ClassKey.ofKeyword?_eq_some.mpr hk
  obtain ⟨ws, hw, hn⟩ := name?_spells hv
  have hlead : leadsToBody ws = true := by
    rw [hw.eq_of_nil]
    cases rest with
    | nil => rfl
    | cons t rest => rw [leadsToBody, hr t rfl]; rfl
  simp only [classHead?, ht, classKey?, hkey, hn, Option.bind_eq_bind, Option.bind_some,
    Option.map_some, hlead, if_true]
  rw [hw.eq_of_nil]
  rfl

end HeaderOutline
