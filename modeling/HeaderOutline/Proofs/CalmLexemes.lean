import HeaderOutline.Proofs.Spelling
/-!
# The lexemes of headers

Every lexeme of a header is plain. A lexeme is calm when no line is broken behind it or, as before
an opening brace, in front of it; types, parameters, functions up to their ends and class heads are
made of calm lexemes, so each of these is printed on one line.

Results: `calm_type`, `calm_function`, `calm_classHead`, `plain_header`.
-/
namespace HeaderOutline
open Text Declaration

/-- A plain lexeme without blanks. Only the vertical tab is a mark and blank at once. -/
def Lexeme.Firm (l : Lexeme) : Prop :=
  l.isPlain = true ∧ ∀ c ∈ l.chars, isBlank c = false

/-- A firm lexeme that no line break stands next to for its sake. -/
def Lexeme.Calm (l : Lexeme) : Prop :=
  l.Firm ∧ l ∉ breakers

instance (l : Lexeme) : Decidable l.Firm :=
  inferInstanceAs (Decidable (_ ∧ _))

instance (l : Lexeme) : Decidable l.Calm :=
  inferInstanceAs (Decidable (_ ∧ _))

def AllCalm (ls : List Lexeme) : Prop :=
  ∀ l ∈ ls, l.Calm

@[simp] theorem allCalm_nil : AllCalm [] := fun _ h => absurd h List.not_mem_nil

@[simp] theorem allCalm_cons {l : Lexeme} {ls : List Lexeme} :
    AllCalm (l :: ls) ↔ l.Calm ∧ AllCalm ls :=
  List.forall_mem_cons

@[simp] theorem allCalm_append {ls ms : List Lexeme} :
    AllCalm (ls ++ ms) ↔ AllCalm ls ∧ AllCalm ms :=
  List.forall_mem_append

/-- What holds of a comma and of the lexemes of all items holds of the list. -/
theorem forall_commas {P : Lexeme → Prop} (hc : P (.mark ",")) {items : List (List Lexeme)}
    (h : ∀ i ∈ items, ∀ l ∈ i, P l) : ∀ l ∈ commas items, P l := by
  induction items with
  | nil => exact fun _ h => absurd h List.not_mem_nil
  | cons i is ih =>
    have his := ih fun j hj => h j (List.mem_cons_of_mem _ hj)
    rw [commas_cons]
    refine List.forall_mem_append.mpr ⟨h i List.mem_cons_self, ?_⟩
    split
    · exact fun _ h => absurd h List.not_mem_nil
    · exact List.forall_mem_cons.mpr ⟨hc, his⟩

theorem allCalm_commas {items : List (List Lexeme)} (h : ∀ i ∈ items, AllCalm i) :
    AllCalm (commas items) :=
  forall_commas (by decide) h

/-! ## Words -/

theorem calm_of_word {text : String} (h : (Lexeme.word text).isPlain = true) :
    (Lexeme.word text).Calm := by
  have hc := h
  simp only [Lexeme.isPlain, Lexeme.word, Bool.and_eq_true, List.all_eq_true] at hc
  refine ⟨⟨h, fun c hm => isBlank_of_isNameChar (hc.2 c hm)⟩, fun hm => ?_⟩
  have hall : ∀ l ∈ breakers, l.kind = .mark := by decide
  cases hall _ hm

theorem calm_name (n : FreeName) : n.lexeme.Calm :=
  calm_of_word n.isPlain

theorem calm_native (w : NativeWord) : w.lexeme.Calm :=
  calm_of_word (w.isPlain (nativeWord_spec w).1.1 (nativeWord_spec w).1.2)

theorem calm_number (w : NumberWord) : w.lexeme.Calm := by
  obtain ⟨h1, h2⟩ := numberWord_spec w
  refine calm_of_word (w.isPlain (fun h => ?_) h2)
  rw [h] at h1
  cases h1

/-! ## Types and functions -/

inductive TypeLexeme : Lexeme → Prop
  | mark {text : String} : text ∈ ["::", "<", ",", ">", "*", "&"] → TypeLexeme (.mark text)
  | const : TypeLexeme (.word "const")
  | native (w : NativeWord) : TypeLexeme w.lexeme
  | number (w : NumberWord) : TypeLexeme w.lexeme
  | name (n : FreeName) : TypeLexeme n.lexeme

namespace TypeLexeme

theorem calm {l : Lexeme} (h : TypeLexeme l) : l.Calm := by
  cases h with
  | mark hm =>
    have hall : ∀ m ∈ ["::", "<", ",", ">", "*", "&"], (Lexeme.mark m).Calm := by decide
    exact hall _ hm
  | const => decide
  | native w => exact calm_native w
  | number w => exact calm_number w
  | name n => exact calm_name n

theorem ne_close {l : Lexeme} (h : TypeLexeme l) : l.text ≠ ")" := by
  cases h with
  | mark hm =>
    have hall : ∀ m ∈ ["::", "<", ",", ">", "*", "&"], m ≠ ")" := by decide
    exact hall _ hm
  | const => decide
  | native w => exact w.ne (by decide)
  | number w => exact w.ne (by decide)
  | name n => exact n.ne (by decide)

abbrev All (ls : List Lexeme) : Prop :=
  ∀ l ∈ ls, TypeLexeme l

theorem all_commas {items : List (List Lexeme)} (h : ∀ i ∈ items, All i) : All (commas items) :=
  forall_commas (.mark (by simp)) h

theorem all_const (c : Bool) : All ((constTexts c).map .word) := by
  cases c
  · exact fun _ h => absurd h List.not_mem_nil
  · exact List.forall_mem_singleton.mpr .const

theorem all_qualifiedName (q : QualifiedName) : All q.lexemes := by
  obtain ⟨rooted, first, later⟩ := q
  have hroot : TypeLexeme (.mark "::") := .mark (by simp)
  refine List.forall_mem_append.mpr ⟨?_, List.forall_mem_cons.mpr ⟨.name first, fun l hl => ?_⟩⟩
  · cases rooted
    · exact fun _ h => absurd h List.not_mem_nil
    · exact List.forall_mem_singleton.mpr hroot
  · obtain ⟨n, -, hl⟩ := List.mem_flatMap.mp hl
    simp only [List.mem_cons, List.not_mem_nil, or_false] at hl
    rcases hl with rfl | rfl
    · exact hroot
    · exact .name n

theorem all_bareType (b : BareType) : All b.lexemes := by
  cases b with
  | native w ws =>
    refine List.forall_mem_cons.mpr ⟨.native w, fun l hl => ?_⟩
    obtain ⟨v, -, rfl⟩ := List.mem_map.mp hl
    exact .native v
  | named q => exact all_qualifiedName q

theorem all_typeMarks (m : TypeMarks) : All m.lexemes := by
  intro l hl
  obtain ⟨x, hx, rfl⟩ := List.mem_map.mp hl
  simp only [TypeMarks.texts, List.mem_append, List.mem_replicate] at hx
  refine .mark ?_
  rcases hx with ⟨-, rfl⟩ | ⟨-, rfl⟩
  · decide
  · decide

mutual

theorem all_type : (t : TypeSyntax) → All t.lexemes
  | .plain c b m => List.forall_mem_append.mpr
      ⟨all_const c, List.forall_mem_append.mpr ⟨all_bareType b, all_typeMarks m⟩⟩
  | .applied c q args m => by
    have hargs := all_commas (all_arguments args)
    simp only [TypeSyntax.lexemes, All, List.forall_mem_append, List.forall_mem_cons]
    exact ⟨all_const c, all_qualifiedName q, .mark (by simp), hargs, .mark (by simp),
      all_typeMarks m⟩

theorem all_arguments : (args : TypeArguments) → ∀ i ∈ args.items, All i
  | .nil => fun _ h => absurd h List.not_mem_nil
  | .number n args =>
    List.forall_mem_cons.mpr ⟨List.forall_mem_singleton.mpr (.number n), all_arguments args⟩
  | .type t args => List.forall_mem_cons.mpr ⟨all_type t, all_arguments args⟩

end

end TypeLexeme

theorem calm_const (c : Bool) : AllCalm ((constTexts c).map .word) :=
  fun l hl => (TypeLexeme.all_const c l hl).calm

theorem calm_type (t : TypeSyntax) : AllCalm t.lexemes :=
  fun l hl => (TypeLexeme.all_type t l hl).calm

theorem calm_parameter (p : ParameterSyntax) : AllCalm p.lexemes := by
  cases p with
  | variadic => exact allCalm_cons.mpr ⟨by decide, allCalm_nil⟩
  | typed t name =>
    refine allCalm_append.mpr ⟨calm_type t, fun l hl => ?_⟩
    obtain ⟨n, -, rfl⟩ := List.mem_map.mp hl
    exact calm_name n

theorem calm_parameters (ps : ParameterList) : AllCalm ps.lexemes := by
  have hitems : AllCalm (commas (ps.items.map (·.lexemes))) := by
    refine allCalm_commas fun i hi => ?_
    obtain ⟨p, -, rfl⟩ := List.mem_map.mp hi
    exact calm_parameter p
  simp only [ParameterList.lexemes, allCalm_cons, allCalm_append]
  exact ⟨by decide, hitems, by decide, allCalm_nil⟩

theorem calm_function (f : FunctionSyntax) : AllCalm f.lexemes := by
  simp only [FunctionSyntax.lexemes, allCalm_cons, allCalm_append]
  exact ⟨calm_type f.type, calm_name f.name, calm_parameters f.params, calm_const f.isConst⟩

/-! ## Classes and enums -/

theorem calm_template (t : TemplateSyntax) : AllCalm t.lexemes := by
  have hitems : AllCalm (commas
      ((t.first :: t.later).map fun n => [Lexeme.word "typename", n.lexeme])) := by
    refine allCalm_commas fun i hi => ?_
    obtain ⟨n, -, rfl⟩ := List.mem_map.mp hi
    exact allCalm_cons.mpr ⟨by decide, allCalm_cons.mpr ⟨calm_name n, allCalm_nil⟩⟩
  simp only [TemplateSyntax.lexemes, allCalm_cons, allCalm_append]
  exact ⟨by decide, by decide, hitems, by decide, allCalm_nil⟩

theorem calm_classHead (c : ClassSyntax) : AllCalm c.lexemes := by
  obtain ⟨template, key, name⟩ := c
  have hkey : (Lexeme.word key.keyword).Calm := by cases key <;> decide
  refine allCalm_append.mpr ⟨?_, allCalm_cons.mpr ⟨hkey, allCalm_cons.mpr
    ⟨calm_name name, allCalm_nil⟩⟩⟩
  cases template with
  | none => exact allCalm_nil
  | some t => exact calm_template t

/-! ## Whole headers -/

def AllPlain (ls : List Lexeme) : Prop :=
  ∀ l ∈ ls, l.isPlain = true

@[simp] theorem allPlain_nil : AllPlain [] := fun _ h => absurd h List.not_mem_nil

@[simp] theorem allPlain_cons {l : Lexeme} {ls : List Lexeme} :
    AllPlain (l :: ls) ↔ l.isPlain = true ∧ AllPlain ls :=
  List.forall_mem_cons

@[simp] theorem allPlain_append {ls ms : List Lexeme} :
    AllPlain (ls ++ ms) ↔ AllPlain ls ∧ AllPlain ms :=
  List.forall_mem_append

theorem AllCalm.plain {ls : List Lexeme} (h : AllCalm ls) : AllPlain ls :=
  fun l hl => (h l hl).1.1

theorem calm_enumHead (e : EnumSyntax) :
    AllCalm (.word "enum" :: (e.key.toList.map (.word ·.keyword) ++
      e.name.toList.map (·.lexeme))) := by
  refine allCalm_cons.mpr ⟨by decide, allCalm_append.mpr ⟨fun l hl => ?_, fun l hl => ?_⟩⟩
  · obtain ⟨key, -, rfl⟩ := List.mem_map.mp hl
    cases key <;> decide
  · obtain ⟨n, -, rfl⟩ := List.mem_map.mp hl
    exact calm_name n

theorem calm_enumMembers (e : EnumSyntax) : AllCalm (commas (e.members.map ([·.lexeme]))) := by
  refine allCalm_commas fun i hi => ?_
  obtain ⟨n, -, rfl⟩ := List.mem_map.mp hi
  exact allCalm_cons.mpr ⟨calm_name n, allCalm_nil⟩

theorem plain_enum (e : EnumSyntax) : AllPlain e.lexemes := by
  have h1 := (calm_enumHead e).plain
  have h2 := (calm_enumMembers e).plain
  simp only [allPlain_cons, allPlain_append] at h1
  simp only [EnumSyntax.lexemes, allPlain_cons, allPlain_append]
  exact ⟨h1.1, h1.2, by decide, h2, by decide, by decide, allPlain_nil⟩

theorem plain_declaration (d : DeclSyntax) : AllPlain d.lexemes := by
  cases d with
  | enum e => exact plain_enum e
  | function f =>
    simp only [DeclSyntax.lexemes, allPlain_cons, allPlain_append]
    exact ⟨(calm_function f).plain, by decide, allPlain_nil⟩
  | definition f body =>
    simp only [DeclSyntax.lexemes, allPlain_cons, allPlain_append]
    exact ⟨(calm_function f).plain, by decide, body.plain, by decide, allPlain_nil⟩

theorem plain_members (name : FreeName) (ms : MembersSyntax) : AllPlain (ms.lexemes name) := by
  have hname := (calm_name name).1.1
  induction ms generalizing name with
  | nil =>
    simp only [MembersSyntax.lexemes, allPlain_cons]
    exact ⟨by decide, by decide, allPlain_nil⟩
  | label level rest ih =>
    simp only [MembersSyntax.lexemes, allPlain_cons]
    exact ⟨by cases level <;> decide, by decide, ih name hname⟩
  | constructor params rest ih =>
    simp only [MembersSyntax.lexemes, allPlain_cons, allPlain_append]
    exact ⟨hname, (calm_parameters params).plain, by decide, ih name hname⟩
  | destructor rest ih =>
    simp only [MembersSyntax.lexemes, allPlain_cons]
    exact ⟨by decide, hname, by decide, by decide, by decide, ih name hname⟩
  | declaration d rest ih =>
    simp only [MembersSyntax.lexemes, allPlain_append]
    exact ⟨plain_declaration d, ih name hname⟩
  | nested head members rest ih1 ih2 =>
    simp only [MembersSyntax.lexemes, allPlain_cons, allPlain_append]
    exact ⟨(calm_classHead head).plain, by decide, ih1 head.name (calm_name _).1.1, ih2 name hname⟩

/-- Every lexeme of a header is plain. -/
theorem plain_header (h : HeaderSyntax) : AllPlain h.lexemes := by
  induction h with
  | nil => exact allPlain_nil
  | declaration d rest ih =>
    simp only [HeaderSyntax.lexemes, allPlain_append]
    exact ⟨plain_declaration d, ih⟩
  | classBody head members rest ih =>
    simp only [HeaderSyntax.lexemes, allPlain_cons, allPlain_append]
    exact ⟨(calm_classHead head).plain, by decide, plain_members _ _, ih⟩
  | nameSpace name inner rest ih1 ih2 =>
    have hname : AllPlain (name.toList.map (·.lexeme)) := by
      intro l hl
      obtain ⟨n, -, rfl⟩ := List.mem_map.mp hl
      exact (calm_name n).1.1
    simp only [HeaderSyntax.lexemes, allPlain_cons, allPlain_append]
    exact ⟨by decide, hname, by decide, ih1, by decide, ih2⟩

end HeaderOutline
