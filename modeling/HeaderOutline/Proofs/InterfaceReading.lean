import HeaderOutline.Proofs.InterfaceSyntax
import HeaderOutline.Proofs.Layout
import HeaderOutline.Proofs.LineBreaks
import HeaderOutline.Proofs.Matches
/-!
# Interfaces are read back

The declarations of an interface are read as these, with a semicolon behind them or before a body,
and they are matched by their own rules: a rule that recognizes a declaration is the first to, so
nothing has to be said of the others.

Results:
* `skipDefault_value`, `FormalSyntax.reads`: default values and parameters.
* `tail?_declares`, `tail?_defines`: what stands behind the parameters.
* `function?_routine`, `constructor?_reads`, `destructor?_reads`: declarations.
* `match?_routine`, `match?_constructorSyntax`, `match?_destructorSyntax`: they are matched.
-/
namespace HeaderOutline
open Text Declaration

variable {rest mid ts us r : List Token} {ls : List Lexeme}

/-! ## Words -/

theorem plain_of_isSpecifier {text : String} (h : isSpecifier text = true) :
    (Lexeme.word text).isPlain = true := by
  simp only [isSpecifier, Bool.or_eq_true, beq_iff_eq] at h
  rcases h with (((rfl | rfl) | rfl) | rfl) | rfl <;> decide

theorem plain_of_isQualifier {text : String} (h : isQualifier text = true) :
    (Lexeme.word text).isPlain = true := by
  simp only [isQualifier, Bool.or_eq_true, beq_iff_eq] at h
  rcases h with ((rfl | rfl) | rfl) | rfl <;> decide

theorem plain_of_isConstructorWord {text : String} (h : isConstructorWord text = true) :
    (Lexeme.word text).isPlain = true := by
  simp only [isConstructorWord, Bool.or_eq_true, beq_iff_eq] at h
  rcases h with (rfl | rfl) | rfl <;> decide

theorem plain_of_isDestructorWord {text : String} (h : isDestructorWord text = true) :
    (Lexeme.word text).isPlain = true := by
  simp only [isDestructorWord, Bool.or_eq_true, beq_iff_eq] at h
  rcases h with rfl | rfl <;> decide

theorem calm_words {sort : String → Bool}
    (hs : ∀ {text}, sort text = true → (Lexeme.word text).isPlain = true) (ws : WordsOf sort) :
    AllCalm ws.lexemes := by
  intro l hl
  obtain ⟨w, -, rfl⟩ := List.mem_map.mp hl
  exact calm_of_word (hs w.holds)

/-- Words of a sort are dropped up to a token that is none. -/
theorem dropWhile_words {sort : String → Bool} {ws : WordsOf sort} (h : Spells mid ws.lexemes ts)
    (hm : ∀ t ∈ mid.head?, sort t.text = false) :
    (ts.dropWhile fun t => sort t.text) = mid := by
  induction ws generalizing ts with
  | nil =>
    rw [h.eq_of_nil]
    cases mid with
    | nil => rfl
    | cons t mid => rw [List.dropWhile_cons, if_neg (by simp [hm t rfl])]
  | cons w ws ih =>
    obtain ⟨t, us, rfl, -, ht, h⟩ := h.uncons
    have ht : t.text = w.text := ht
    rw [List.dropWhile_cons, if_pos (by rw [ht]; exact w.holds), ih h]

/-! ## Parameters -/

/-- A default value is skipped. -/
theorem skipDefault_value {nesting : Nat} (h : Spells rest ls ts)
    (hc : closesValue nesting ls = true) (hr : EndsItem ")" rest) :
    skipDefault ")" nesting 0 ts = rest := by
  induction ls generalizing nesting ts with
  | nil =>
    rw [h.eq_of_nil]
    have hn : nesting = 0 := by simpa [closesValue] using hc
    obtain ⟨mark, hm, _, _, hs⟩ := hr
    obtain ⟨t, us, rfl, -, ht, -⟩ := hs.uncons
    have ht : t.text = mark := ht
    simp only [List.mem_cons, List.not_mem_nil, or_false] at hm
    rcases hm with rfl | rfl <;> simp [skipDefault, isOpening, isClosing, ht, hn]
  | cons l ls ih =>
    obtain ⟨t, us, rfl, -, ht, h⟩ := h.uncons
    rw [closesValue] at hc
    rw [skipDefault, ht]
    split at hc
    · next ho => rw [if_pos ho, ih h hc]
    · next ho =>
      rw [if_neg ho]
      split at hc
      · next hclose =>
        rw [Bool.and_eq_true, decide_eq_true_eq] at hc
        rw [if_pos ⟨hclose, hc.1⟩, ih h hc.2]
      · next hclose =>
        have hparen : l.text ≠ ")" := fun he => hclose (by rw [he]; decide)
        simp only [Bool.and_eq_true, Bool.or_eq_true, decide_eq_true_eq, bne_iff_ne] at hc
        have hends : ¬(nesting = 0 ∧ l.text = ",") := by
          rintro ⟨h0, he⟩
          rcases hc.1 with hpos | hne
          · omega
          · exact hne he
        simpa [hclose, hparen, hends] using ih h hc.2

theorem calm_value (value : Option ValueSyntax) : AllCalm (FormalSyntax.valueLexemes value) := by
  cases value with
  | none => exact allCalm_nil
  | some v => exact allCalm_cons.mpr ⟨by decide, v.calm⟩

theorem calm_formal (p : FormalSyntax) : AllCalm p.lexemes := by
  cases p with
  | variadic => exact allCalm_cons.mpr ⟨by decide, allCalm_nil⟩
  | typed t name value =>
    refine allCalm_append.mpr ⟨calm_type t, allCalm_append.mpr ⟨fun l hl => ?_, calm_value value⟩⟩
    obtain ⟨n, -, rfl⟩ := List.mem_map.mp hl
    exact calm_name n

/-- A default value is skipped with its equals sign. In front of it, or where there is none, stands
a mark that ends a name and a type. -/
theorem skipAssigned_value {value : Option ValueSyntax}
    (h : Spells rest (FormalSyntax.valueLexemes value) ts) (hr : EndsItem ")" rest) :
    skipAssigned ")" ts = rest ∧ freeName? ts = none ∧ EndsType ts := by
  cases value with
  | none =>
    rw [h.eq_of_nil]
    refine ⟨hr.skipAssigned (by decide) ")", ?_, hr.endsType (by decide)⟩
    obtain ⟨mark, -, _, _, hs⟩ := hr
    exact freeName?_mark hs
  | some v =>
    refine ⟨?_, freeName?_mark h, endsType_of_spells h (by decide)⟩
    obtain ⟨us, hu, hs⟩ := h.skip?_self
    have hs : skip? "=" ts = some us := hs
    simp only [skipAssigned, hs, skipDefault_value hu v.closed hr]

theorem FormalSyntax.head (p : FormalSyntax) :
    ∃ l ms, p.lexemes = l :: ms ∧ (l = .mark "..." ∨ BeginsType l) := by
  cases p with
  | variadic => exact ⟨_, [], rfl, .inl rfl⟩
  | typed t name value =>
    obtain ⟨l, ms, hl, hb⟩ := t.head
    exact ⟨l, _, by rw [lexemes, hl, List.cons_append], .inr hb⟩

/-- A parameter is read, and its default value is skipped. -/
theorem FormalSyntax.reads (p : FormalSyntax) : ParameterReads p.value p.lexemes where
  plain := (calm_formal p).plain
  head := p.head
  read us r hr hu := by
    cases p with
    | variadic => exact parameterReads_variadic.read hr hu
    | typed t name value =>
      obtain ⟨l, ms, hl, hb⟩ := t.head
      have hdots : skip? "..." us = none := by
        have h := hu
        rw [lexemes, hl] at h
        exact h.skip?_ne (hb.ne (by decide))
      obtain ⟨v, ht, hv⟩ := hu.split
      obtain ⟨w, hn, hw⟩ := hv.split
      obtain ⟨hskip, hfree, hend⟩ := skipAssigned_value hw hr
      obtain ⟨hends, hname⟩ : EndsType v ∧ parameterName v = (name.map (·.text), w) := by
        cases name with
        | none =>
          rw [hn.eq_of_nil, parameterName, hfree]
          exact ⟨hend, rfl⟩
        | some n =>
          obtain ⟨x, hx, hfree⟩ := freeName?_spells hn
          rw [parameterName, hfree, hx.eq_of_nil]
          exact ⟨endsType_of_name hn, rfl⟩
      simp only [parameter?, hdots, type?_spells t ht hends, Option.map_some, hname, hskip,
        FormalSyntax.value]

theorem calm_formals (ps : FormalList) : AllCalm ps.lexemes := by
  have hitems : AllCalm (commas (ps.items.map (·.lexemes))) := by
    refine allCalm_commas fun i hi => ?_
    obtain ⟨p, -, rfl⟩ := List.mem_map.mp hi
    exact calm_formal p
  simp only [FormalList.lexemes, allCalm_cons, allCalm_append]
  exact ⟨by decide, hitems, by decide, allCalm_nil⟩

/-! ## What stands behind the parameters -/

/-- What may follow qualifiers: the sign of a specifier, a semicolon or a body. -/
def tailEnds : List String :=
  ["=", ";", "\x7b"]

theorem qualifiers?_end (mayGroup c : Bool) (h : ∀ t ∈ ts.head?, t.text ∈ tailEnds) :
    qualifiers? mayGroup 0 c ts = some (c, ts) := by
  cases ts with
  | nil => rfl
  | cons t ts =>
    have hall : ∀ w ∈ tailEnds, w ∉ ["(", "const", "override", "final", "noexcept", "throw"] := by
      decide
    have ht := hall _ (h t rfl)
    simp only [List.mem_cons, List.not_mem_nil, or_false, not_or] at ht
    simp [qualifiers?, ht]

theorem qualifiers?_words {ws : WordsOf isQualifier} (mayGroup c : Bool)
    (h : Spells rest ws.lexemes ts) (hr : ∀ t ∈ rest.head?, t.text ∈ tailEnds) :
    qualifiers? mayGroup 0 c ts = some (c || ws.has "const", rest) := by
  induction ws generalizing ts mayGroup c with
  | nil =>
    rw [h.eq_of_nil, qualifiers?_end mayGroup c hr]
    simp [WordsOf.has]
  | cons w ws ih =>
    obtain ⟨t, us, rfl, -, ht, h⟩ := h.uncons
    have ht : t.text = w.text := ht
    have hw := w.holds
    simp only [isQualifier, Bool.or_eq_true, beq_iff_eq] at hw
    rw [qualifiers?, ht]
    rcases hw with ((hw | hw) | hw) | hw <;> simp [hw, ih _ _ h, WordsOf.has]

theorem specifier_lexemes {spec : Option Specifier} (h : Spells rest (specifierLexemes spec) ts)
    (hr : ∀ t ∈ rest.head?, t.text ∈ [";", "\x7b"]) : specifier ts = (spec, rest) := by
  cases spec with
  | none =>
    have hall : ∀ w ∈ [";", "\x7b"], w ∉ tailWords := by decide
    rw [h.eq_of_nil]
    exact specifier_none fun t ht => hall _ (hr t ht)
  | some s =>
    obtain ⟨e, us, rfl, -, he, h⟩ := h.uncons
    obtain ⟨v, us, rfl, -, hv, h⟩ := h.uncons
    have he : e.text = "=" := he
    have hv : v.text = s.sign := hv
    have hs : specifierOf? s.sign = some s := by cases s <;> rfl
    rw [h.eq_of_nil, specifier, if_pos he, hv, hs]

/-- The end of a declaration. -/
theorem tail?_declares {ws : WordsOf isQualifier} {spec : Option Specifier}
    (h : Spells rest (ws.lexemes ++ (specifierLexemes spec ++ [.mark ";"])) ts) :
    tail? ts = some (⟨ws.has "const", spec, true⟩, rest) := by
  obtain ⟨us, h1, h2⟩ := h.split
  obtain ⟨vs, h3, h4⟩ := h2.split
  obtain ⟨xs, h5, hs⟩ := h4.skip?_self
  have hs : skip? ";" vs = some xs := hs
  have hvs : ∀ t ∈ vs.head?, t.text = ";" := h4.head
  have hus : ∀ t ∈ us.head?, t.text ∈ tailEnds := by
    cases spec with
    | none =>
      rw [h3.eq_of_nil]
      exact fun t ht => by rw [hvs t ht]; decide
    | some s => exact fun t ht => by rw [h3.head t ht]; decide
  have hspec := specifier_lexemes h3 fun t ht => by rw [hvs t ht]; decide
  simp only [tail?, qualifiers?_words false false h1 hus, Bool.false_or, hspec, hs, h5.eq_of_nil]

/-- The end of what a body follows. -/
theorem tail?_defines {ws : WordsOf isQualifier} (h : Spells rest ws.lexemes ts)
    (hr : OpensBody rest) : tail? ts = some (⟨ws.has "const", none, false⟩, rest) := by
  have hends : ∀ t ∈ rest.head?, t.text ∈ tailEnds := fun t ht => by rw [hr t ht]; decide
  have hnone : Spells rest (specifierLexemes none) rest := .nil
  have hspec := specifier_lexemes hnone fun t ht => by rw [hr t ht]; decide
  obtain ⟨hs, ho⟩ : skip? ";" rest = none ∧ opensBody rest = true := by
    cases rest with
    | nil => exact ⟨rfl, rfl⟩
    | cons t rest =>
      have ht := hr t rfl
      exact ⟨if_neg (by rw [ht]; decide), by rw [opensBody, ht]; rfl⟩
  simp only [tail?, qualifiers?_words false false h hends, Bool.false_or, hspec, hs, ho, if_true]

theorem parametersAndTail?_reads {ps : FormalList} {tail : Tail}
    (h : Spells rest (ps.lexemes ++ ls) ts)
    (ht : ∀ us, Spells rest ls us → tail? us = some (tail, mid)) :
    ∃ us, skip? "(" ts = some us ∧ parametersAndTail? us = some ((ps.values, tail), mid) := by
  obtain ⟨us, hu, hs⟩ := h.skip?_self
  have hs : skip? "(" ts = some us := hs
  rw [List.append_eq, List.append_assoc] at hu
  obtain ⟨r, hr, hp⟩ := parameters?_reads (fun p _ => p.reads) ps.notVoid hu
  exact ⟨us, hs, by simp [parametersAndTail?, hp, ht r hr, FormalList.values]⟩

/-! ## Functions -/

theorem specifiers_words {ws : WordsOf isSpecifier} (a b : Bool) (h : Spells rest ws.lexemes ts)
    (hr : ∀ t ∈ rest.head?, t.text ∉ frontWords) :
    specifiers a b ts = ((a || ws.has "static", b || ws.has "virtual"), rest) := by
  induction ws generalizing ts a b with
  | nil =>
    rw [h.eq_of_nil, specifiers_none a b hr]
    simp [WordsOf.has]
  | cons w ws ih =>
    obtain ⟨t, us, rfl, -, ht, h⟩ := h.uncons
    have ht : t.text = w.text := ht
    have hw := w.holds
    simp only [isSpecifier, Bool.or_eq_true, beq_iff_eq] at hw
    rw [specifiers, ht]
    rcases hw with (((hw | hw) | hw) | hw) | hw <;> simp [hw, ih _ _ h, WordsOf.has]

theorem front?_words {template : Option TemplateSyntax} {ws : WordsOf isSpecifier}
    (hls : ∃ l ms, ls = l :: ms ∧ BeginsType l)
    (h : Spells rest ((template.map (·.lexemes)).getD [] ++ (ws.lexemes ++ ls)) ts) :
    ∃ v, Spells rest ls v ∧
      front? ts = some (⟨template.map (·.value), ws.has "static", ws.has "virtual"⟩, v) := by
  obtain ⟨u, hu, htemplate⟩ : ∃ u, Spells rest (ws.lexemes ++ ls) u ∧
      templateHead? ts = some (template.map (·.value), u) := by
    cases template with
    | some t => exact templateHead?_spells h
    | none =>
      refine ⟨ts, h, ?_⟩
      have hs : skip? "template" ts = none := by
        cases ws with
        | nil =>
          obtain ⟨l, ms, rfl, hl⟩ := hls
          exact h.skip?_ne (hl.ne (by decide))
        | cons w ws => exact h.skip?_ne (w.ne (by decide))
      simp only [templateHead?, hs]
      rfl
  obtain ⟨v, h1, h2⟩ := hu.split
  have hhead : ∀ t ∈ v.head?, t.text ∉ frontWords := fun t ht => by
    obtain ⟨l, ms, rfl, hl⟩ := hls
    rw [h2.head t ht]
    exact hl.not_frontWord
  exact ⟨v, h2, by simp [front?, htemplate, specifiers_words false false h1 hhead]⟩

/-- A function is read when what follows its parameters is. -/
theorem function?_routine {f : RoutineSyntax} {spec : Option Specifier} {b : Bool}
    (h : Spells rest (f.lexemes ++ ls) ts)
    (htail : ∀ us, Spells rest (f.qualifiers.lexemes ++ ls) us →
      tail? us = some (⟨f.qualifiers.has "const", spec, b⟩, mid)) :
    function? ts = some (⟨f.signature spec, b⟩, mid) := by
  simp only [RoutineSyntax.lexemes, List.append_assoc] at h
  obtain ⟨l, ms, hl, hb⟩ := f.type.head
  obtain ⟨r1, h1, hfront⟩ := front?_words ⟨l, _, by rw [hl, List.cons_append], hb⟩ h
  obtain ⟨r2, h2, h3⟩ := h1.split
  obtain ⟨r3, h4, h5⟩ := h3.split
  have hends : EndsType r2 := by
    have hname : f.name.lexemes = f.name.first.lexeme ::
        f.name.later.flatMap fun n => [.mark "::", n.lexeme] := by
      rw [QualifiedName.lexemes, f.relative]
      rfl
    rw [hname] at h4
    exact endsType_of_name h4
  have htype := type?_spells f.type h2 hends
  have hname := qualifiedName?_spells h4 fun t ht => by
    have ht : t.text = "(" := h5.head t ht
    rw [ht]
    decide
  obtain ⟨r4, hs, hp⟩ := parametersAndTail?_reads h5 htail
  simp only [function?, Option.bind_eq_bind, hfront, htype, hname, hs, hp, Option.bind_some,
    assemble, RoutineSyntax.signature]

/-! ## Constructors and destructors -/

theorem constructor?_reads {n : FreeName} {c : ConstructorSyntax}
    (h : Spells rest (c.lexemes n ++ [.mark ";"]) ts) :
    constructor? n.text ts = some (⟨⟨n.text, c.params.values⟩, true⟩, rest) := by
  simp only [ConstructorSyntax.lexemes, List.append_assoc, List.cons_append] at h
  obtain ⟨r1, h1, h2⟩ := h.split
  obtain ⟨r2, h3, hname⟩ := name?_spells h2
  have hdrop : ts.dropWhile (fun t => decide (t.text = "explicit" ∨ t.text = "inline" ∨
      t.text = "constexpr")) = r1 := by
    have hsort : (fun t : Token => decide (t.text = "explicit" ∨ t.text = "inline" ∨
        t.text = "constexpr")) = fun t => isConstructorWord t.text := by
      funext t
      simp only [isConstructorWord, Bool.decide_or, Bool.or_assoc, beq_eq_decide]
    rw [hsort]
    refine dropWhile_words h1 fun t ht => Bool.eq_false_iff.mpr fun hc => ?_
    have hfree : ∀ {w}, isConstructorWord w = true → isFreeName w = false := fun {w} hw => by
      simp only [isConstructorWord, Bool.or_eq_true, beq_iff_eq] at hw
      rcases hw with (rfl | rfl) | rfl <;> decide
    exact n.ne (hfree hc) (h2.head t ht).symm
  obtain ⟨r3, hs, hp⟩ := parametersAndTail?_reads h3 fun _ => tail?_declares
  simp only [constructor?, hdrop, hname, Option.bind_eq_bind, Option.filter_some, decide_true,
    if_true, Option.bind_some, hs, hp]

theorem destructor?_reads {n : FreeName} {d : DestructorSyntax}
    (h : Spells rest (d.lexemes n ++ [.mark ";"]) ts) :
    destructor? ts = some (⟨"~" ++ n.text, true⟩, rest) := by
  simp only [DestructorSyntax.lexemes, List.append_assoc, List.cons_append] at h
  obtain ⟨r0, h0, h⟩ := h.split
  have hdrop : ts.dropWhile (fun t => decide (t.text = "virtual" ∨ t.text = "inline")) = r0 := by
    have hsort : (fun t : Token => decide (t.text = "virtual" ∨ t.text = "inline")) =
        fun t => isDestructorWord t.text := by
      funext t
      simp only [isDestructorWord, Bool.decide_or, beq_eq_decide]
    rw [hsort]
    refine dropWhile_words h0 fun t ht => ?_
    rw [h.head t ht]
    decide
  obtain ⟨r1, h1, hs1⟩ := h.skip?_self
  have hs1 : skip? "~" r0 = some r1 := hs1
  obtain ⟨r2, h2, hn⟩ := name?_spells h1
  obtain ⟨r3, h3, hs3⟩ := h2.skip?_self
  have hs3 : skip? "(" r2 = some r3 := hs3
  obtain ⟨r4, h4, hs4⟩ := h3.skip?_self
  have hs4 : skip? ")" r3 = some r4 := hs4
  have hvoid : skip? "void" r3 = none := h3.skip?_ne (by decide)
  simp only [destructor?, hdrop, hs1, hn, hs3, skipOptional, hvoid, Option.getD_none, hs4,
    tail?_declares h4, Option.bind_eq_bind, Option.bind_some]

/-! ## Lexemes -/

theorem calm_name_lexemes (q : QualifiedName) : AllCalm q.lexemes :=
  fun l hl => (TypeLexeme.all_qualifiedName q l hl).calm

theorem calm_specifier (spec : Option Specifier) : AllCalm (specifierLexemes spec) := by
  cases spec with
  | none => exact allCalm_nil
  | some s =>
    have hs : (Lexeme.word s.sign).Calm := by cases s <;> decide
    exact allCalm_cons.mpr ⟨by decide, allCalm_cons.mpr ⟨hs, allCalm_nil⟩⟩

theorem calm_routine (f : RoutineSyntax) : AllCalm f.lexemes := by
  have htemplate : AllCalm ((f.template.map (·.lexemes)).getD []) := by
    cases f.template with
    | none => exact allCalm_nil
    | some t => exact calm_template t
  simp only [RoutineSyntax.lexemes, allCalm_append]
  exact ⟨htemplate, calm_words plain_of_isSpecifier f.words, calm_type f.type,
    calm_name_lexemes f.name, calm_formals f.params, calm_words plain_of_isQualifier f.qualifiers⟩

theorem calm_constructor (n : FreeName) (c : ConstructorSyntax) : AllCalm (c.lexemes n) := by
  simp only [ConstructorSyntax.lexemes, allCalm_append, allCalm_cons]
  exact ⟨calm_words plain_of_isConstructorWord c.words, calm_name n, calm_formals c.params,
    calm_words plain_of_isQualifier c.qualifiers, calm_specifier c.specifier⟩

theorem calm_destructor (n : FreeName) (d : DestructorSyntax) : AllCalm (d.lexemes n) := by
  simp only [DestructorSyntax.lexemes, allCalm_append, allCalm_cons]
  exact ⟨calm_words plain_of_isDestructorWord d.words, by decide, calm_name n, by decide, by decide,
    calm_words plain_of_isQualifier d.qualifiers, calm_specifier d.specifier⟩

/-! ## Matches -/

variable {context : Context} {className : Option String} {text : List Char}

/-- The lexemes begin with something else than the word `enum`. -/
def NotEnum (ls : List Lexeme) : Prop :=
  ∃ l ms, ls = l :: ms ∧ l.text ≠ "enum"

theorem NotEnum.append {ms : List Lexeme} (h : NotEnum ls) : NotEnum (ls ++ ms) := by
  obtain ⟨l, ls, rfl, hl⟩ := h
  exact ⟨l, ls ++ ms, rfl, hl⟩

theorem NotEnum.words {sort : String → Bool} (hs : sort "enum" = false) (ws : WordsOf sort)
    (h : NotEnum ls) : NotEnum (ws.lexemes ++ ls) := by
  cases ws with
  | nil => exact h
  | cons w ws => exact ⟨w.lexeme, _, rfl, w.ne hs⟩

theorem notEnum_routine (f : RoutineSyntax) : NotEnum f.lexemes := by
  obtain ⟨l, ms, hl, hb⟩ := f.type.head
  have htype : NotEnum f.type.lexemes := ⟨l, ms, hl, hb.ne (by decide)⟩
  rw [RoutineSyntax.lexemes]
  cases f.template with
  | none => exact .words (by decide) f.words htype.append
  | some t => exact ⟨_, _, rfl, by decide⟩

theorem notEnum_constructor (n : FreeName) (c : ConstructorSyntax) : NotEnum (c.lexemes n) :=
  .words (by decide) c.words ⟨_, _, rfl, n.ne (by decide)⟩

theorem notEnum_destructor (n : FreeName) (d : DestructorSyntax) : NotEnum (d.lexemes n) :=
  .words (by decide) d.words ⟨_, _, rfl, by decide⟩

/-- A declaration that is recognized is matched: the word `enum` alone could come before it. -/
theorem match?_declaration {rule : Rule} {k : Construct} (hd : rule ∈ Rule.declRules)
    (ha : rule.appliesIn context = true) (hl : ∀ l ∈ ls, l.Firm) (he : NotEnum ls)
    (hp : Parted text)
    (hr : Rule.recognize? className (joined ls ++ text) rule = some (k, text)) :
    Rule.match? context className (joined ls ++ text) = some (rule, k, text) := by
  obtain ⟨l, ms, rfl, hne⟩ := he
  refine Rule.match?_of_declRule hd ha hr (Bool.eq_false_iff.mpr fun hs => ?_)
  obtain ⟨xs, hx⟩ := Rule.tokens_of_startsEnum hs
  exact hne ((spells_joined (fun l h => (hl l h).1) hp).head _ (by rw [hx]; rfl)).symm

theorem firm_append (h : AllCalm ls) {l : Lexeme} (hl : l.Firm) : ∀ m ∈ ls ++ [l], m.Firm :=
  List.forall_mem_append.mpr ⟨fun m hm => (h m hm).1, List.forall_mem_singleton.mpr hl⟩

/-- A function is matched when it is read, whatever stands behind its qualifiers. -/
theorem match?_routine (className : Option String) {f : RoutineSyntax}
    {spec : Option Specifier} {b : Bool}
    (hc : context.holdsDeclarations) (hl : ∀ l ∈ ls, l.Firm) (hp : Parted text)
    (hf : ∀ ts, Spells (Token.tokens text) (f.lexemes ++ ls) ts →
      function? ts = some (⟨f.signature spec, b⟩, Token.tokens text)) :
    Rule.match? context className (joined (f.lexemes ++ ls) ++ text) =
      some (.function, .function (f.signature spec) b, text) := by
  have hfirm : ∀ l ∈ f.lexemes ++ ls, l.Firm :=
    List.forall_mem_append.mpr ⟨fun l h => (calm_routine f l h).1, hl⟩
  refine match?_declaration (by decide) ?_ hfirm (notEnum_routine f).append hp ?_
  · rcases hc with rfl | rfl <;> rfl
  · rw [Rule.recognize?, readText_some (fun l h => (hfirm l h).1) hp hf]

theorem match?_constructorSyntax {n : FreeName} {c : ConstructorSyntax} (hp : Parted text) :
    Rule.match? .classBody (some n.text) (joined (c.lexemes n ++ [.mark ";"]) ++ text) =
      some (.constructor, .constructor ⟨n.text, c.params.values⟩ true, text) := by
  have hfirm := firm_append (calm_constructor n c) (l := .mark ";") (by decide)
  refine match?_declaration (by decide) rfl hfirm (notEnum_constructor n c).append hp ?_
  rw [Rule.recognize?, Option.bind_some,
    readText_some (fun l h => (hfirm l h).1) hp fun _ => constructor?_reads]

theorem match?_destructorSyntax {n : FreeName} {d : DestructorSyntax} (hp : Parted text) :
    Rule.match? .classBody className (joined (d.lexemes n ++ [.mark ";"]) ++ text) =
      some (.destructor, .destructor ("~" ++ n.text) true, text) := by
  have hfirm := firm_append (calm_destructor n d) (l := .mark ";") (by decide)
  refine match?_declaration (by decide) rfl hfirm (notEnum_destructor n d).append hp ?_
  rw [Rule.recognize?, readText_some (fun l h => (hfirm l h).1) hp fun _ => destructor?_reads]

end HeaderOutline
