import HeaderOutline.DocTarget
import HeaderOutline.Proofs.Fragments
import HeaderOutline.Proofs.WrittenTypes
/-!
# What is documented

A comment quotes the names of parameters and nothing else of the header. These are words, so
whatever is written around them they begin and end no comment and break no line. And each target
stands in a line of the header that has some text.

Results:
* `plain_of_recognize?`: the names of the parameters that a rule reads.
* `target_of_source`: the names in a target, and its line.
-/
namespace HeaderOutline
open Text Declaration

def IsPlainName (name : String) : Prop :=
  ∀ c ∈ name.toList, isNameChar c = true

/-! ## Names of parameters -/

section

variable {ts rest : List Token}

theorem plain_of_parameter? {p : Parameter} (hl : Lexical ts)
    (h : parameter? ts = some (p, rest)) : ∀ n ∈ p.name, IsPlainName n := by
  unfold parameter? at h
  split at h
  · cases h
    exact fun n hn => by cases hn
  · obtain ⟨⟨type, behind⟩, ht, heq⟩ := Option.map_eq_some_iff.mp h
    cases heq
    intro n hn
    have hn : (parameterName behind).1 = some n := hn
    unfold parameterName at hn
    split at hn
    · next hname =>
      cases hn
      obtain ⟨t, rfl, rfl, hword, -⟩ := freeName?_eq_some hname
      simp only [Token.isName, Bool.and_eq_true, beq_iff_eq] at hword
      exact (hl.of_suffix (advances_type? ht).1) t List.mem_cons_self hword.1
    · cases hn

theorem plain_of_parametersAndTail? {ps : List Parameter} {tail : Tail} (hl : Lexical ts)
    (h : parametersAndTail? ts = some ((ps, tail), rest)) :
    ∀ p ∈ ps, ∀ n ∈ p.name, IsPlainName n := by
  simp only [parametersAndTail?, Option.bind_eq_bind, Option.bind_eq_some_iff, Option.some.injEq,
    Prod.mk.injEq] at h
  obtain ⟨⟨_, us⟩, h, _, -, ⟨rfl, -⟩, -⟩ := h
  unfold parameters? at h
  split at h
  · cases h
    exact fun p hp => absurd hp List.not_mem_nil
  · exact (forall_of_commaList advances_parameter?
      (fun us p r hus hp => plain_of_parameter? (hl.of_suffix hus) hp) h).2

theorem plain_of_function? {d : Declared Signature} (hl : Lexical ts)
    (h : function? ts = some (d, rest)) : ∀ p ∈ d.item.params, ∀ n ∈ p.name, IsPlainName n := by
  simp only [function?, Option.bind_eq_bind, Option.bind_eq_some_iff, Option.some.injEq,
    Prod.mk.injEq] at h
  obtain ⟨⟨front, r1⟩, h1, ⟨type, r2⟩, h2, ⟨name, r3⟩, h3, r4, h4, ⟨⟨params, tail⟩, r5⟩, h5, rfl,
    -⟩ := h
  have hs := (suffix_of_skip? h4).1.trans ((advances_qualifiedName? h3).1.trans
    ((advances_type? h2).1.trans (suffix_of_front? h1)))
  exact plain_of_parametersAndTail? (hl.of_suffix hs) h5

theorem plain_of_callOperator? {d : Declared Signature} (hl : Lexical ts)
    (h : callOperator? ts = some (d, rest)) :
    ∀ p ∈ d.item.params, ∀ n ∈ p.name, IsPlainName n := by
  simp only [callOperator?, Option.bind_eq_bind, Option.bind_eq_some_iff, Option.some.injEq,
    Prod.mk.injEq] at h
  obtain ⟨⟨front, r1⟩, h1, ⟨type, r2⟩, h2, r3, h3, r4, h4, r5, h5, r6, h6, ⟨⟨params, tail⟩, r7⟩, h7,
    rfl, -⟩ := h
  have hs := (suffix_of_skip? h6).1.trans ((suffix_of_skip? h5).1.trans
    ((suffix_of_skip? h4).1.trans ((suffix_of_skip? h3).1.trans
      ((advances_type? h2).1.trans (suffix_of_front? h1)))))
  exact plain_of_parametersAndTail? (hl.of_suffix hs) h7

theorem plain_of_operator? {d : Declared Signature} (hl : Lexical ts)
    (h : operator? ts = some (d, rest)) : ∀ p ∈ d.item.params, ∀ n ∈ p.name, IsPlainName n := by
  simp only [operator?, Option.bind_eq_bind, Option.bind_eq_some_iff, Option.some.injEq,
    Prod.mk.injEq] at h
  obtain ⟨⟨front, r1⟩, h1, r3, h3, name, -, r4, h4, ⟨⟨params, tail⟩, r5⟩, h5, rfl, -⟩ := h
  have hs := (suffix_of_skip? h4).1.trans ((List.dropWhile_suffix _).trans
    ((suffix_of_skip? h3).1.trans ((suffix_operatorType r1).trans (suffix_of_front? h1))))
  exact plain_of_parametersAndTail? (hl.of_suffix hs) h5

theorem plain_of_constructor? {className : String} {d : Declared Constructor} (hl : Lexical ts)
    (h : constructor? className ts = some (d, rest)) :
    ∀ p ∈ d.item.params, ∀ n ∈ p.name, IsPlainName n := by
  simp only [constructor?, Option.bind_eq_bind, Option.bind_eq_some_iff, Option.some.injEq,
    Prod.mk.injEq, Option.filter_eq_some_iff] at h
  obtain ⟨⟨name, r1⟩, ⟨h1, -⟩, r2, h2, ⟨⟨params, tail⟩, r3⟩, h3, rfl, -⟩ := h
  have hs := (suffix_of_skip? h2).1.trans ((advances_name? h1).1.trans (List.dropWhile_suffix _))
  exact plain_of_parametersAndTail? (hl.of_suffix hs) h3

end

def Construct.params : Construct → List Parameter
  | .function f _ => f.params
  | .constructor c _ => c.params
  | _ => []

/-- A rule reads words for the names of parameters. -/
theorem plain_of_recognize? {className : Option String} {cs rest : List Char} {k : Construct}
    {rule : Rule} (h : Rule.recognize? className cs rule = some (k, rest)) :
    ∀ p ∈ k.params, ∀ n ∈ p.name, IsPlainName n := by
  have hl := lexical_tokens cs
  cases Rule.makes_of_recognize? h with
  | callOperator s terminated =>
    obtain ⟨⟨d, r⟩, hd, heq⟩ := Option.map_eq_some_iff.mp h
    cases heq
    exact plain_of_callOperator? hl hd
  | operator s terminated =>
    obtain ⟨⟨d, r⟩, hd, heq⟩ := Option.map_eq_some_iff.mp h
    cases heq
    exact plain_of_operator? hl hd
  | function s terminated =>
    obtain ⟨⟨d, r⟩, hd, heq⟩ := Option.map_eq_some_iff.mp h
    cases heq
    exact plain_of_function? hl hd
  | constructor item terminated =>
    obtain ⟨name, -, h⟩ := Option.bind_eq_some_iff.mp h
    obtain ⟨⟨d, r⟩, hd, heq⟩ := Option.map_eq_some_iff.mp h
    cases heq
    exact plain_of_constructor? hl hd
  | _ => exact fun p hp => absurd hp List.not_mem_nil

/-! ## Targets -/

namespace DocSubject

theorem isStructural_of_ofEvent? {e : Event} {s : DocSubject} (h : ofEvent? e = some s) :
    e.isStructural = true := by
  cases e <;> first | rfl | cases h

theorem params_of_ofEvent? {later : List SourceLine} {k : Construct} {e : Event} {s : DocSubject}
    (hk : k.event? later = some e ∨ (∃ d, e = .enum d) ∨ e.isBrace = true)
    (h : ofEvent? e = some s) : ∀ n ∈ s.params, ∃ p ∈ k.params, p.name = some n := by
  rcases hk with hk | ⟨d, rfl⟩ | hk
  · cases k with
    | function f terminated | constructor c terminated =>
      cases terminated <;> cases hk <;> cases h <;> exact fun n hn => List.mem_filterMap.mp hn
    | destructor name terminated =>
      cases terminated <;> cases hk <;> cases h <;> exact fun n hn => absurd hn List.not_mem_nil
    | classHead head => cases hk; cases h; exact fun n hn => absurd hn List.not_mem_nil
    | define | nameSpace => cases hk; cases h
    | _ => cases hk
  · cases h
    exact fun n hn => absurd hn List.not_mem_nil
  · cases e <;> first | cases h; done | cases hk

end DocSubject

open State

def targetsOf (source : String) : List DocTarget :=
  DocTarget.ofCallbacks (parse source).callbacks

/-- A target names parameters by words, and stands in a line of the header. -/
theorem target_of_source {source : String} {t : DocTarget} (ht : t ∈ targetsOf source) :
    (∀ n ∈ t.subject.params, IsPlainName n) ∧
      ∃ l ∈ SourceLine.ofSource source.toList, l.number = t.line := by
  obtain ⟨c, hc, heq⟩ := List.mem_filterMap.mp ht
  obtain ⟨subject, he, rfl⟩ := Option.map_eq_some_iff.mp heq
  have hk := DocSubject.isStructural_of_ofEvent? he
  obtain ⟨s, line, later, es, u, ⟨fs, hr⟩, hp, hs, hmem⟩ := exists_step_of_mem_callbacks hc hk
  obtain ⟨hn, rule, k, rest, hf, hevent⟩ := found?_of_mem_step hs hmem hk
  constructor
  · intro n hn
    obtain ⟨p, hp, hname⟩ := DocSubject.params_of_ofEvent? hevent he n hn
    exact plain_of_recognize? (Rule.recognize?_of_match? hf).2 p hp n hname
  · obtain ⟨ls, hls, -⟩ := remnant_of_reads hr hp
    obtain ⟨g, hg, hnumber⟩ := Option.map_eq_some_iff.mp hls.number
    refine ⟨g, hls.suffix.subset (List.mem_append_left _ (List.mem_of_head? hg)), ?_⟩
    rw [hnumber, ← hn]

end HeaderOutline
