import HeaderOutline.Proofs.DeclarationReading
import HeaderOutline.Proofs.WrittenTypes
/-!
# The canonical text of a signature

A signature that was read from a text is written as a text from which it is read again: its template
names, its type, its name, its parameters and its `const`. What the written form leaves out is not
read again: `static`, `virtual`, and what follows an equals sign.

A signature is read back part by part. Every part brings the lexemes it is written as and a proof
that they are read as this part (`TypeReads`, `NameReads`, `ParameterReads`), and `function?_reads`
puts the parts together. It leaves open what follows the parameters, so it serves for declarations
and definitions alike.

One list of parameters is not read back: a single `void` without a name stands for no parameters.

Results:
* `function?_reads`: a function whose parts are read back is.
* `recognize?_render`: the canonical text of a signature, with a semicolon, is recognized as it.
-/
namespace HeaderOutline
open Text Declaration

variable {ts us r rest : List Token} {ls ms : List Lexeme}

/-! ## Lists -/

theorem written_intercalate {α : Type} {text : α → String} {f : α → List Lexeme} {xs : List α}
    (h : ∀ x ∈ xs, Complete (text x).toList (f x)) :
    Written (", ".intercalate (xs.map text)).toList (commas (xs.map f)) := by
  rw [String.toList_intercalate, List.map_map]
  induction xs with
  | nil => exact .nil
  | cons x xs ih =>
    obtain ⟨hx, hxs⟩ := List.forall_mem_cons.mp h
    have ih := ih hxs
    cases xs with
    | nil => simpa [commas_cons, List.intercalate] using hx.toWritten
    | cons y ys =>
      have hcomma := hx.append (.single (l := .mark ",") (by decide))
        (apart_of_head _ (by decide))
      have hne : commas ((y :: ys).map f) ≠ [] := by
        rw [List.map_cons, commas_cons]
        exact List.append_ne_nil_of_left_ne_nil (hxs y List.mem_cons_self).ne_nil _
      have := hcomma.append_blank (by simp) ih hne
      have hcommas : commas ((x :: y :: ys).map f) = f x ++ .mark "," :: commas ((y :: ys).map f) :=
        by rw [List.map_cons, commas_cons]; rfl
      rw [hcommas]
      simpa [List.intercalate_cons_cons, Lexeme.chars, Lexeme.mark] using this

/-- A comma or the end of a list comes next. -/
def EndsItem (close : String) (ts : List Token) : Prop :=
  ∃ mark ∈ [",", close], ∃ rest ls, Spells rest (.mark mark :: ls) ts

theorem EndsItem.endsType {close : String} (hc : close ∈ endMarks) (h : EndsItem close ts) :
    EndsType ts := by
  obtain ⟨mark, hm, rest, ls, hts⟩ := h
  refine endsType_of_mark ?_ hts
  simp only [List.mem_cons, List.not_mem_nil, or_false] at hm
  rcases hm with rfl | rfl
  · decide
  · exact hc

theorem EndsItem.skipAssigned {close : String} (hc : close ≠ "=") (h : EndsItem close ts)
    (other : String) : skipAssigned other ts = ts := by
  obtain ⟨mark, hm, rest, ls, hts⟩ := h
  refine skipAssigned_of_head other fun t ht he => ?_
  have hmark : t.text = mark := hts.head t ht
  rw [← hmark, he] at hm
  simp only [List.mem_cons, List.not_mem_nil, or_false] at hm
  rcases hm with hm | hm
  · exact absurd hm (by decide)
  · exact hc hm.symm

/-! ## Parameters -/

structure ParameterReads (p : Parameter) (ls : List Lexeme) : Prop where
  plain : ∀ l ∈ ls, l.isPlain = true
  head : ∃ l ms, ls = l :: ms ∧ (l = .mark "..." ∨ BeginsType l)
  read : Rereads parameter? (EndsItem ")") p ls

theorem parameterReads_variadic : ParameterReads ⟨.ofTokens ["..."], none⟩ [.mark "..."] where
  plain := by decide
  head := ⟨_, [], rfl, .inl rfl⟩
  read us r _ hu := by
    obtain ⟨vs, hv, hs⟩ := hu.skip?_self
    have hs : skip? "..." us = some vs := hs
    simp only [parameter?, hs, hv.eq_of_nil]

/-- The lexemes are those of the written parameter, and they are read as the parameter. -/
structure ParameterText (p : Parameter) (ls : List Lexeme) : Prop extends ParameterReads p ls where
  complete : Complete p.render.toList ls

/-- Whatever is read as a parameter is read back from its written form. -/
theorem exists_parameterText {p : Parameter} (hw : Worded ts)
    (h : parameter? ts = some (p, rest)) : ∃ ls, ParameterText p ls := by
  unfold parameter? at h
  split at h
  · cases h
    exact ⟨_, parameterReads_variadic, complete_mark (by decide) (by decide)⟩
  · obtain ⟨⟨e, behind⟩, ht, heq⟩ := Option.map_eq_some_iff.mp h
    cases heq
    change ∃ ls, ParameterText ⟨e, (parameterName behind).1⟩ ls
    obtain ⟨ls, hls⟩ := exists_typeReads hw ht
    obtain ⟨l, ms, hl, hb⟩ := hls.head
    have hbehind := hw.of_suffix (advances_type? ht).1
    have hdots : ∀ {us r}, Spells r ls us → skip? "..." us = none := fun hu => by
      rw [hl] at hu
      exact hu.skip?_ne (hb.ne (by decide))
    cases hn : freeName? behind with
    | none =>
      rw [show parameterName behind = (none, behind) by rw [parameterName, hn]]
      have hcomplete : Complete (Parameter.render ⟨e, none⟩).toList ls := by
        simpa [Parameter.render, TypeExpr.render] using hls.complete
      refine ⟨ls, ⟨hcomplete.plain, ⟨l, ms, hl, .inr hb⟩, fun us r hr hu => ?_⟩, hcomplete⟩
      · have hend := hr.endsType (by decide)
        have hvalue := hr.skipAssigned (by decide) ")"
        obtain ⟨mark, -, _, _, hmark⟩ := hr
        simp only [parameter?, hdots hu, hls.endsType.read hend hu, Option.map_some, parameterName,
          freeName?_mark hmark, hvalue]
    | some x =>
      obtain ⟨name, after⟩ := x
      obtain ⟨n, rfl, rfl, hname, hres⟩ := freeName?_eq_some hn
      rw [show parameterName (n :: after) = (some n.text, after) by rw [parameterName, hn]]
      have hcomplete : Complete (Parameter.render ⟨e, some n.text⟩).toList (ls ++ [n.bare]) := by
        have := hls.complete.complete_blank hls.complete.ne_nil (hbehind.complete hname)
        simpa [Parameter.render, TypeExpr.render] using this
      refine ⟨ls ++ [n.bare], ⟨hcomplete.plain, ⟨l, ms ++ [n.bare], by rw [hl]; rfl, .inr hb⟩,
        fun us r hr hu => ?_⟩, hcomplete⟩
      · obtain ⟨vs, h1, h2⟩ := hu.split
        have hend := endsAlike_of_name hbehind hname h2
        obtain ⟨xs, hx, hfree⟩ := freeName?_alike hname hres h2
        simp only [parameter?, hdots h1, hls.read hend h1, Option.map_some, parameterName, hfree,
          hx.eq_of_nil, hr.skipAssigned (by decide)]

/-- A parameter that is just `void`. Alone in its list it stands for no parameters. -/
def voidParameter : Parameter :=
  ⟨.token "void" .nil, none⟩

theorem parameter?_void {t u : Token} (ht : t.bare = .word "void") (hu : u.bare = .mark ")") :
    parameter? (t :: u :: r) = some (voidParameter, u :: r) := by
  have hclose : Spells r [.mark ")"] (u :: r) := .of_bare hu .nil
  have hvoid : Spells (u :: r) [.word "void"] (t :: u :: r) := .of_bare ht .nil
  exact parameter?_spells (p := .typed (.plain false (.native ⟨"void", rfl⟩ []) ⟨0, 0⟩) none)
    (by decide) hclose hvoid

/-- Only the parameter `void` can be taken for no parameters, and only before a parenthesis. -/
theorem ParameterReads.eq_void {p : Parameter} {mid : List Token} (hp : ParameterReads p ls)
    (hm : EndsItem ")" mid) (hu : Spells mid ls us)
    (h : (skip? "void" us).bind (skip? ")") = some r) :
    p = voidParameter ∧ skip? ")" mid = some r := by
  obtain ⟨v, hv, hclose⟩ := Option.bind_eq_some_iff.mp h
  obtain ⟨t, rfl, ht⟩ := skip?_eq_some.mp hv
  obtain ⟨u, rfl, hu'⟩ := skip?_eq_some.mp hclose
  have hread := hp.read hm hu
  obtain ⟨l, ms, rfl, hl⟩ := hp.head
  obtain ⟨_, _, heq, hk, htext, h2⟩ := hu.uncons
  cases heq
  have hvoid : t.bare = .word "void" := by
    have hword : l = .word "void" := by
      rcases hl with rfl | hl
      · exact absurd (ht.symm.trans htext) (by decide)
      · exact hl.eq_word (by decide) (htext.symm.trans ht)
    rw [Token.bare, hk, htext, hword]
  have hmark : u.bare = .mark ")" := by
    cases ms with
    | nil =>
      obtain rfl := h2.eq_of_nil
      obtain ⟨mark, -, _, _, hs⟩ := hm
      obtain ⟨_, _, heq, hk, -, -⟩ := hs.uncons
      cases heq
      rw [Token.bare, hk, hu']
      rfl
    | cons m ms =>
      obtain ⟨_, _, heq, hk, hm', -⟩ := h2.uncons
      cases heq
      have hbare : u.bare = m := by rw [Token.bare, hk, hm']
      refine bare_eq_mark ?_ hu' ⟨')', by decide, by decide⟩
      rw [hbare]
      exact hp.plain m (by simp)
  rw [parameter?_void hvoid hmark] at hread
  cases hread
  exact ⟨rfl, hclose⟩

theorem exists_parameterTexts {ps : List Parameter} (hw : Worded ts)
    (h : parameters? ts = some (ps, rest)) : ∀ p ∈ ps, ∃ ls, ParameterText p ls := by
  unfold parameters? at h
  split at h
  · cases h
    exact fun p hp => absurd hp List.not_mem_nil
  · exact (forall_of_commaList advances_parameter? (fun us p r hus hp =>
      exists_parameterText (hw.of_suffix hus) hp) h).2

theorem complete_parameters {ps : List Parameter} {f : Parameter → List Lexeme}
    (h : ∀ p ∈ ps, ParameterText p (f p)) :
    Complete ("(" ++ renderParams ps ++ ")").toList
      (.mark "(" :: (commas (ps.map f) ++ [.mark ")"])) := by
  have hopen : Written "(".toList [.mark "("] := .single (l := .mark "(") (by decide)
  have hclose : Complete ")".toList [.mark ")"] := complete_mark (by decide) (by decide)
  have hlist := written_intercalate fun p hp => (h p hp).complete
  have hall := (hopen.append hlist (apart_of_last (by decide) _)).append_complete hclose
    (apart_of_head _ (by decide))
  simpa [renderParams] using hall

/-- A parameter list is read when each parameter is, unless it is just `void`. -/
theorem parameters?_reads {α : Type} {value : α → Parameter} {f : α → List Lexeme} {ps : List α}
    (hps : ∀ p ∈ ps, ParameterReads (value p) (f p)) (hvoid : ps.map value ≠ [voidParameter])
    (hu : Spells r (commas (ps.map f) ++ .mark ")" :: ls) us) :
    ∃ v, Spells r ls v ∧ parameters? us = some (ps.map value, v) := by
  cases ps with
  | nil =>
    obtain ⟨v, hv, hs⟩ := hu.skip?_self
    have hs : skip? ")" us = some v := hs
    exact ⟨v, hv, by simp only [parameters?, hs, Option.some_or, List.map_nil]⟩
  | cons p ps =>
    obtain ⟨v, hv, hlist⟩ : ∃ v, Spells r ls v ∧
        commaList parameter? ")" us = some ((p :: ps).map value, v) :=
      commaList_spells advances_parameter? (by decide) (by simp)
        (fun p hp mark hm _ _ _ h2 h1 => (hps p hp).read ⟨mark, hm, _, _, h2⟩ h1) hu
    refine ⟨v, hv, ?_⟩
    have hp := hps p List.mem_cons_self
    rw [List.map_cons, commas_cons, List.append_assoc] at hu
    obtain ⟨mid, h1, h2⟩ := hu.split
    have hnone : (skip? ")" us).or ((skip? "void" us).bind (skip? ")")) = none := by
      obtain ⟨l, ms, hl, hb⟩ := hp.head
      have hclose : l.text ≠ ")" := by
        rcases hb with rfl | hb
        · decide
        · exact hb.ne (by decide)
      have hfirst := h1
      rw [hl] at hfirst
      rw [hfirst.skip?_ne hclose, Option.none_or]
      refine Option.eq_none_iff_forall_ne_some.mpr fun w hw => ?_
      cases ps with
      | nil =>
        obtain ⟨heq, -⟩ := hp.eq_void ⟨")", by decide, _, _, h2⟩ h1 hw
        exact hvoid (congrArg (· :: []) heq)
      | cons q ps =>
        obtain ⟨-, hs⟩ := hp.eq_void ⟨",", by decide, _, _, h2⟩ h1 hw
        rw [h2.skip?_ne (by decide)] at hs
        cases hs
    simp only [parameters?, hnone, hlist]

/-! ## Template heads -/

def IsNameText (name : String) : Prop :=
  (Lexeme.word name).isPlain = true ∧ ¬name.toList.head?.any Token.isDigit

theorem isNameText_of_isName {t : Token} (hw : Worded (t :: ts)) (hn : t.isName = true) :
    IsNameText t.text := by
  simp only [Token.isName, Bool.and_eq_true, beq_iff_eq, Bool.not_eq_true'] at hn
  exact ⟨hw.isPlain hn.1, by rw [← Token.startsWithDigit, hn.2]; decide⟩

theorem name?_reads {name : String} (hn : IsNameText name) (hu : Spells r (.word name :: ls) us) :
    ∃ v, Spells r ls v ∧ Declaration.name? us = some (name, v) := by
  obtain ⟨u, v, rfl, hk, ht, hv⟩ := hu.uncons
  have ht : u.text = name := ht
  have hname : u.isName = true := by
    have hdigit : u.startsWithDigit = false := by
      rw [Token.startsWithDigit, ht]
      exact Bool.eq_false_iff.mpr hn.2
    rw [Token.isName, hk, hdigit]
    rfl
  exact ⟨v, hv, by rw [Declaration.name?, if_pos hname, ht]⟩

def typenameLexemes (name : String) : List Lexeme :=
  [.word "typename", .word name]

def templateLexemes (t : TemplateParams) : List Lexeme :=
  .word "template" :: .mark "<" :: (commas (t.names.map typenameLexemes) ++ [.mark ">"])

theorem complete_typename {name : String} (hn : IsNameText name) :
    Complete ("typename " ++ name).toList (typenameLexemes name) := by
  have hword : Complete "typename".toList [.word "typename"] := complete_word (by decide)
  simpa [typenameLexemes] using hword.complete_blank (by simp) (complete_word hn.1)

theorem complete_template {t : TemplateParams} (ht : ∀ n ∈ t.names, IsNameText n) :
    Complete t.render.toList (templateLexemes t) := by
  have hword : Complete "template".toList [.word "template"] := complete_word (by decide)
  have hopen : Written "<".toList [.mark "<"] := .single (l := .mark "<") (by decide)
  have hclose : Complete ">".toList [.mark ">"] := complete_mark (by decide) (by decide)
  have hlist := written_intercalate fun n hn => complete_typename (ht n hn)
  have hinner := hopen.append hlist (apart_of_last (by decide) _)
  have hall := hinner.append_complete hclose (apart_of_head _ (by decide))
  simpa [TemplateParams.render, templateLexemes] using hword.complete_blank (by simp) hall

theorem isNameText_of_templateItem? {name : String} (hw : Worded ts)
    (h : templateItem? ts = some (name, rest)) : IsNameText name := by
  unfold templateItem? at h
  split at h
  · cases h
  · next behind hskip =>
    obtain ⟨⟨n, after⟩, hn, heq⟩ := Option.map_eq_some_iff.mp h
    cases heq
    obtain ⟨t, rfl, hname, rfl⟩ := exists_of_name? hn
    have hsuf : t :: after <:+ ts := by
      rcases Option.or_eq_some_iff.mp hskip with h | ⟨_, h⟩
      · exact (suffix_of_skip? h).1
      · exact (suffix_of_skip? h).1
    exact isNameText_of_isName (hw.of_suffix hsuf) hname

theorem isNameText_of_templateHead? {t : Option TemplateParams} (hw : Worded ts)
    (h : templateHead? ts = some (t, rest)) : ∀ x ∈ t, ∀ n ∈ x.names, IsNameText n := by
  unfold templateHead? at h
  split at h
  · cases h
    simp
  · next behind h1 =>
    split at h
    · cases h
    · next inner h2 =>
      split at h
      · cases h
        simp
      · obtain ⟨⟨names, after⟩, hl, heq⟩ := Option.map_eq_some_iff.mp h
        cases heq
        have hsuf := (suffix_of_skip? h2).1.trans (suffix_of_skip? h1).1
        have hall := (forall_of_commaList advances_templateItem? (fun us n r hus hn =>
          isNameText_of_templateItem? (hw.of_suffix (hus.trans hsuf)) hn) hl).2
        simpa using hall

theorem templateItem?_reads {name : String} (hn : IsNameText name) :
    Rereads templateItem? (EndsItem ">") name (typenameLexemes name) := by
  intro us r hr hu
  obtain ⟨vs, hv, hs⟩ := hu.skip?_self
  have hs : skip? "typename" us = some vs := hs
  obtain ⟨xs, hx, hname⟩ := name?_reads hn hv
  simp only [templateItem?, hs, Option.some_or, hname, hx.eq_of_nil, Option.map_some,
    hr.skipAssigned (by decide)]

theorem templateHead?_reads {t : TemplateParams} (ht : ∀ n ∈ t.names, IsNameText n)
    (hu : Spells r (templateLexemes t ++ ls) us) :
    ∃ v, Spells r ls v ∧ templateHead? us = some (some t, v) := by
  obtain ⟨names⟩ := t
  obtain ⟨r1, h1, hs1⟩ := hu.skip?_self
  have hs1 : skip? "template" us = some r1 := hs1
  obtain ⟨r2, h2, hs2⟩ := h1.skip?_self
  have hs2 : skip? "<" r1 = some r2 := hs2
  rw [List.append_eq, List.append_assoc] at h2
  cases names with
  | nil =>
    obtain ⟨v, hv, hs⟩ := h2.skip?_self
    have hs : skip? ">" r2 = some v := hs
    exact ⟨v, hv, by simp only [templateHead?, hs1, hs2, hs]⟩
  | cons n names =>
    obtain ⟨v, hv, hl⟩ : ∃ v, Spells r ls v ∧
        commaList templateItem? ">" r2 = some ((n :: names).map fun n => n, v) :=
      commaList_spells advances_templateItem? (by decide) (by simp)
        (fun n hn mark hm _ _ _ h4 h3 => templateItem?_reads (ht n hn) ⟨mark, hm, _, _, h4⟩ h3) h2
    have hne : skip? ">" r2 = none := by
      rw [List.map_cons, commas_cons] at h2
      exact h2.skip?_ne (by decide)
    rw [List.map_id'] at hl
    exact ⟨v, hv, by simp only [templateHead?, hs1, hs2, hne, hl, Option.map_some]⟩

theorem specifiers_none (a b : Bool) (h : ∀ t ∈ ts.head?, t.text ∉ frontWords) :
    specifiers a b ts = ((a, b), ts) := by
  cases ts with
  | nil => rfl
  | cons t ts =>
    have ht := h t rfl
    simp only [frontWords, List.mem_cons, List.not_mem_nil, or_false, not_or] at ht
    simp [specifiers, ht]

theorem front?_reads {t : Option TemplateParams} (ht : ∀ x ∈ t, ∀ n ∈ x.names, IsNameText n)
    (hls : ∃ l ms, ls = l :: ms ∧ BeginsType l)
    (hu : Spells r ((t.map templateLexemes).getD [] ++ ls) us) :
    ∃ v, Spells r ls v ∧ front? us = some (⟨t, false, false⟩, v) := by
  have hhead : ∀ {v}, Spells r ls v → ∀ x ∈ v.head?, x.text ∉ frontWords := fun hv x hx => by
    obtain ⟨l, ms, rfl, hl⟩ := hls
    rw [hv.head x hx]
    exact hl.not_frontWord
  cases t with
  | none => exact ⟨us, hu, front?_none (hhead hu)⟩
  | some t =>
    obtain ⟨v, hv, htemplate⟩ := templateHead?_reads (ht t rfl) hu
    exact ⟨v, hv, by simp [front?, htemplate, specifiers_none _ _ (hhead hv)]⟩

/-! ## Signatures -/

/-- The lexemes that a signature is written as, with what is known of its parts. The type was read
before `behind`. -/
structure SignatureText (s : Signature) where
  type : TypeExpr
  typeLexemes : List Lexeme
  nameLexemes : List Lexeme
  paramLexemes : Parameter → List Lexeme
  behind : List Token
  template : ∀ t ∈ s.template, ∀ n ∈ t.names, IsNameText n
  returnType : s.returnType = some type
  typeReads : TypeReads (EndsAlike behind) type typeLexemes
  nameComplete : Complete s.name.toList nameLexemes
  typeEnds : ∀ ⦃us r⦄, Spells r nameLexemes us → EndsAlike behind us
  nameReads : ∀ ⦃us r ls⦄, Spells r (.mark "(" :: ls) us →
    ∀ ⦃ts⦄, Spells us nameLexemes ts → qualifiedName? ts = some (s.name, us)
  params : ∀ p ∈ s.params, ParameterText p (paramLexemes p)
  notVoid : s.params ≠ [voidParameter]

namespace SignatureText

variable {s : Signature}

def plainLexemes (x : SignatureText s) : List Lexeme :=
  x.typeLexemes ++ (x.nameLexemes ++ .mark "(" :: (commas (s.params.map x.paramLexemes) ++
    .mark ")" :: (constTexts s.isConst).map .word))

def lexemes (x : SignatureText s) : List Lexeme :=
  (s.template.map templateLexemes).getD [] ++ x.plainLexemes

/-- A signature is read back when what follows its parameters is. -/
theorem function?_reads (x : SignatureText s) {tail : List Lexeme} {b : Bool}
    (hu : Spells r (x.lexemes ++ tail) us)
    (htail : ∀ vs, Spells r ((constTexts s.isConst).map .word ++ tail) vs →
      tail? vs = some (⟨s.isConst, none, b⟩, rest)) :
    function? us = some (⟨{ s with isStatic := false, isVirtual := false, specifier := none }, b⟩,
      rest) := by
  rw [lexemes, plainLexemes, List.append_assoc, List.append_assoc] at hu
  obtain ⟨r1, h1, hfront⟩ := front?_reads x.template (by
    obtain ⟨l, ms, hl, hb⟩ := x.typeReads.head
    exact ⟨l, _, by rw [hl, List.cons_append], hb⟩) hu
  obtain ⟨r2, h2, h3⟩ := h1.split
  rw [List.append_assoc] at h3
  obtain ⟨r3, h4, h5⟩ := h3.split
  have htype := x.typeReads.read (x.typeEnds h4) h2
  have hname := x.nameReads h5 h4
  obtain ⟨r4, h6, hs⟩ := h5.skip?_self
  have hs : skip? "(" r3 = some r4 := hs
  rw [List.append_eq, List.append_assoc] at h6
  have hps : ∀ p ∈ s.params, ParameterReads (id p) (x.paramLexemes p) :=
    fun p hp => (x.params p hp).toParameterReads
  obtain ⟨r5, h7, hparams⟩ := parameters?_reads hps (by simpa using x.notVoid) h6
  rw [List.map_id] at hparams
  simp only [function?, Option.bind_eq_bind, hfront, htype, hname, hs, parametersAndTail?, hparams,
    htail r5 h7, Option.bind_some, assemble, x.returnType]

/-- What stands behind the template head is written as its lexemes. -/
theorem complete (x : SignatureText s) :
    Complete (x.type.render ++ " " ++ s.name ++ "(" ++ renderParams s.params ++ ")" ++
      if s.isConst then " const" else "").toList x.plainLexemes := by
  have hname := x.nameComplete.append_complete (complete_parameters x.params)
    (apart_of_head _ (by simp; decide))
  have hall := x.typeReads.complete.complete_blank x.typeReads.complete.ne_nil hname
  cases hc : s.isConst with
  | false => simpa [plainLexemes, renderParams, TypeExpr.render, constTexts, hc] using hall
  | true =>
    have hconst := hall.complete_blank hall.ne_nil complete_const
    simpa [plainLexemes, renderParams, TypeExpr.render, constTexts, hc] using hconst

theorem written (x : SignatureText s) : Written s.render.toList x.lexemes := by
  have hplain := x.complete
  rw [lexemes, Signature.render, x.returnType]
  cases ht : s.template with
  | none => simpa using hplain.toWritten
  | some t =>
    have htemplate := complete_template (x.template t ht)
    simpa using htemplate.append_blank htemplate.ne_nil hplain.toWritten hplain.ne_nil

end SignatureText

theorem exists_signatureText {s : Signature} {b : Bool} (hw : Worded ts)
    (h : function? ts = some (⟨s, b⟩, rest)) (hvoid : s.params ≠ [voidParameter]) :
    Nonempty (SignatureText s) := by
  simp only [function?, Option.bind_eq_bind, Option.bind_eq_some_iff, Option.some.injEq,
    Prod.mk.injEq] at h
  obtain ⟨⟨front, r1⟩, h1, ⟨type, r2⟩, h2, ⟨name, r3⟩, h3, r4, h4, ⟨⟨params, tail⟩, r5⟩, h5, heq,
    -⟩ := h
  cases heq
  obtain ⟨⟨template, r0⟩, h0, hfront⟩ := Option.map_eq_some_iff.mp h1
  have hw1 := hw.of_suffix (suffix_of_front? h1)
  have hw2 := hw1.of_suffix (advances_type? h2).1
  have hw3 := hw2.of_suffix (advances_qualifiedName? h3).1
  have hw4 := hw3.of_suffix (suffix_of_skip? h4).1
  obtain ⟨els, hels⟩ := exists_typeReads hw1 h2
  obtain ⟨nls, hnls⟩ := exists_nameReads hw2 h3
  simp only [parametersAndTail?, Option.bind_eq_bind, Option.bind_eq_some_iff, Option.some.injEq,
    Prod.mk.injEq] at h5
  obtain ⟨⟨_, r6⟩, h6, _, -, ⟨rfl, rfl⟩, -⟩ := h5
  cases hfront
  have hps := exists_parameterTexts hw4 h6
  choose! f hf using hps
  refine ⟨⟨type, els, nls, f, r2, isNameText_of_templateHead? hw h0, rfl, hels, hnls.complete,
    hnls.ends, fun us r ls hparen ts hts => hnls.read (stopsAlike_of_head fun u hu => ?_) hts, hf,
    hvoid⟩⟩
  rw [hparen.head u hu]
  decide

/-! ## Texts -/

/-- A rule on tokens takes a text when its reader takes all of its tokens. -/
theorem readText_lexes {α : Type} {read : Reader α} {make : α → Construct} {a : α}
    {cs : List Char} (h : Lexes cs ts []) (hread : read ts = some (a, [])) :
    Rule.readText read make cs = some (make a, []) := by
  have hnil : Token.tokens [] = [] := Token.tokens_of_next?_none rfl
  have htokens := h.tokens
  have hrest := h.textOf
  rw [hnil, List.append_nil] at htokens
  rw [hnil] at hrest
  simp only [Rule.readText, htokens, hread, Option.map_some, hrest]

/-- The canonical text of a signature reads back as the signature. What it leaves out, `static`,
`virtual` and a specifier, is gone. -/
theorem recognize?_render {className : Option String} {cs : List Char} {s : Signature} {b : Bool}
    {rest : List Char}
    (h : Rule.recognize? className cs .function = some (.function s b, rest))
    (hvoid : s.params ≠ [voidParameter]) :
    Rule.recognize? className (s.render.toList ++ [';']) .function =
      some (.function { s with isStatic := false, isVirtual := false, specifier := none } true,
        []) := by
  obtain ⟨⟨⟨item, terminated⟩, r⟩, hf, heq⟩ := Option.map_eq_some_iff.mp h
  cases heq
  obtain ⟨x⟩ := exists_signatureText (worded_tokens cs) hf hvoid
  obtain ⟨ts, hts, hbare⟩ := x.written.lexes [';'] (apart_of_head _ (by decide))
  have hsemicolon : Lexes [';'] [⟨.mark, ";", false⟩] [] :=
    .cons (Rule.next?_delimiter (by decide) []) (.nil [])
  have hspells := spells_bare [] (ts ++ [⟨.mark, ";", false⟩])
  rw [List.append_nil, List.map_append, hbare] at hspells
  rw [Rule.recognize?]
  exact readText_lexes (hts.append hsemicolon) (x.function?_reads hspells fun _ => tail?_declared)

/-- A signature with nested arguments, a rooted name, default values, and a word of a built-in type
for the name of a parameter. -/
def lookupText : List Char :=
  "template <class K = int> static std::map<K, Box<3, ::A *> >&store::find(const unsigned char *key,
    Box int = \x7b1, 2\x7d, ...) const noexcept = 0;".toList

def lookup : Signature :=
  ⟨some ⟨["K"]⟩, some ((TypeExpr.ofTokens ["std::map", "<"]).append ((TypeExpr.ofGroups
      [.ofTokens ["K"], (TypeExpr.ofTokens ["Box", "<"]).append ((TypeExpr.ofGroups
        [.ofTokens ["3"], .ofTokens ["::A", "*"]]).append (.ofTokens [">"]))]).append
      (.ofTokens [">", "&"]))), "store::find",
    [⟨.ofTokens ["const", "unsigned", "char", "*"], some "key"⟩, ⟨.ofTokens ["Box"], some "int"⟩,
      ⟨.ofTokens ["..."], none⟩], true, true, false, some .pureVirtual⟩

theorem recognize?_render_lookup :
    Rule.recognize? none lookupText .function = some (.function lookup true, []) ∧
      lookup.params ≠ [voidParameter] ∧
      lookup.render = "template <typename K> std::map<K, Box<3, ::A*> >& " ++
        "store::find(const unsigned char* key, Box int, ...) const" ∧
      Rule.recognize? none (lookup.render.toList ++ [';']) .function =
        some (.function { lookup with isStatic := false, specifier := none } true, []) := by
  have hread : Rule.recognize? none lookupText .function = some (.function lookup true, []) := by
    decide +kernel
  have hvoid : lookup.params ≠ [voidParameter] := by decide
  exact ⟨hread, hvoid, by decide +kernel, recognize?_render hread hvoid⟩

end HeaderOutline
