import HeaderOutline.Proofs.EnumGathering
import HeaderOutline.Proofs.OutlineIntegrity
import HeaderOutline.Proofs.ReportedNames
import HeaderOutline.Proofs.ScaffoldClasses
/-!
# The names in a scaffold

A scaffold makes up names from those of the header: the class that holds tests from the name of a
class or of the header, and a test from the name of a function. These have to be names again, or the
test file cannot be compiled.

The name of a class is one word, so what holds its tests always has a name. Operators are left out,
whether they are named by a symbol or by a type. But a function that is defined outside its class is
reported under a name with the marks `::`, and these get into the name of its test, which is no name
then. It is the only way for this to happen.

What a scaffold holds is told by the callbacks (`Scaffold.NamedBy`): a callback adds a suite under
the name of a class, or a test that is named after what the callback reports.

Results:
* `isIdentifier_testName_iff`: which functions have tests with a name.
* `identifier_of_classStart`, `qualified_of_mem`: the names that a reading reports.
* `takes_next`: what a callback does to a scaffold.
* `namedBy_next`, `namedBy_after`: the names that a scaffold holds.
* `test_names`: the names that a scaffold writes.
-/
namespace HeaderOutline
open Text Declaration

/-- The text is a name: ASCII letters, digits and underscores, and no digit in front. -/
structure IsIdentifier (text : String) : Prop where
  head : text.toList.head?.any isNameStart = true
  chars : ∀ c ∈ text.toList, isNameChar c = true

instance : DecidablePred IsIdentifier := fun text =>
  decidable_of_iff (text.toList.head?.any isNameStart = true ∧
    ∀ c ∈ text.toList, isNameChar c = true) ⟨fun ⟨h, hc⟩ => ⟨h, hc⟩, fun ⟨h, hc⟩ => ⟨h, hc⟩⟩

theorem IsIdentifier.append {a b : String} (ha : IsIdentifier a)
    (hb : ∀ c ∈ b.toList, isNameChar c = true) : IsIdentifier (a ++ b) := by
  obtain ⟨head, chars⟩ := ha
  constructor
  · cases h : a.toList with
    | nil => rw [h] at head; cases head
    | cons c cs =>
      rw [h] at head
      rw [String.toList_append, h]
      exact head
  · rw [String.toList_append]
    exact List.forall_mem_append.mpr ⟨chars, hb⟩

/-! ## Upper case -/

/-- A character of a name that is no digit may begin one. -/
theorem isNameStart_of_isNameChar {c : Char} (h : isNameChar c = true)
    (hd : Token.isDigit c = false) : isNameStart c = true := by
  simp only [isNameChar, isAsciiAlphanumeric, Bool.or_eq_true, Bool.and_eq_true,
    decide_eq_true_eq, beq_iff_eq] at h
  simp only [Token.isDigit, Bool.and_eq_false_iff, decide_eq_false_iff_not] at hd
  simp only [isNameStart, Bool.or_eq_true, Bool.and_eq_true, decide_eq_true_eq, beq_iff_eq]
  rcases h with h | rfl
  · omega
  · decide

/-- Upper case makes no difference to what an ASCII character may do in a name. -/
theorem toUpper_of_ascii {c : Char} (h : c.toNat < 0x80) :
    isNameChar c.toUpper = isNameChar c ∧ isNameStart c.toUpper = isNameStart c := by
  have hall : ∀ n < 0x80, isNameChar (Char.ofNat n).toUpper = isNameChar (Char.ofNat n) ∧
      isNameStart (Char.ofNat n).toUpper = isNameStart (Char.ofNat n) := by decide +kernel
  have hc := hall c.toNat h
  rwa [Char.ofNat_toNat] at hc

theorem capitalize_of_ascii {c : Char} (h : c.toNat < 0x80) (cs : List Char) :
    capitalize (c :: cs) = c.toUpper :: cs := by
  simp [capitalize, upper, h]

/-- A capital in front makes no difference to whether all characters could stand in a name. -/
theorem forall_mem_capitalize {cs : List Char} (h : ∀ c ∈ cs, c.toNat < 0x80) :
    (∀ c ∈ capitalize cs, isNameChar c = true) ↔ ∀ c ∈ cs, isNameChar c = true := by
  cases cs with
  | nil => rfl
  | cons c cs =>
    have hc := h c List.mem_cons_self
    rw [capitalize_of_ascii hc, List.forall_mem_cons, List.forall_mem_cons,
      (toUpper_of_ascii hc).1]

theorem IsIdentifier.capitalize {text : String} (h : IsIdentifier text) :
    IsIdentifier (String.ofList (Text.capitalize text.toList)) := by
  obtain ⟨head, chars⟩ := h
  have hascii : ∀ c ∈ text.toList, c.toNat < 0x80 := fun c hc => ascii_of_isNameChar (chars c hc)
  constructor
  · rw [String.toList_ofList]
    cases hcs : text.toList with
    | nil => rw [hcs] at head; cases head
    | cons c cs =>
      rw [hcs] at head hascii
      have hc := hascii c List.mem_cons_self
      rw [capitalize_of_ascii hc]
      exact (toUpper_of_ascii hc).2.trans head
  · rw [String.toList_ofList]
    exact (forall_mem_capitalize hascii).mpr chars

namespace Scaffold

/-- A test has a name just if the function could be named without the help of other characters. -/
theorem isIdentifier_testName_iff {function : String}
    (h : ∀ c ∈ function.toList, c.toNat < 0x80) :
    IsIdentifier (testName function) ↔ ∀ c ∈ function.toList, isNameChar c = true := by
  have hlist : ∀ cs, String.ofList ("test".toList ++ cs) = "test" ++ String.ofList cs := by
    intro cs
    rw [String.ofList_append, String.ofList_toList]
  rw [← forall_mem_capitalize h]
  change IsIdentifier (String.ofList ("test".toList ++ _)) ↔ _
  rw [hlist]
  constructor
  · intro hid c hc
    refine hid.chars c ?_
    simp only [String.toList_append, String.toList_ofList]
    exact List.mem_append_right _ hc
  · intro hchars
    have htest : IsIdentifier "test" := by decide
    refine htest.append ?_
    rwa [String.toList_ofList]

theorem identifier_headerSuite {header : String} (h : IsIdentifier (Path.stem header)) :
    IsIdentifier (headerSuite header) := by
  have hne : (Path.stem header).isEmpty = false := by
    rw [String.isEmpty_eq_false_iff]
    rintro hempty
    have hhead := h.head
    rw [hempty] at hhead
    cases hhead
  rw [headerSuite]
  simp only [hne, Bool.false_eq_true, if_false]
  exact h.capitalize

end Scaffold

theorem Suite.identifier_fixture {s : Suite} (h : IsIdentifier s.name) :
    IsIdentifier s.fixture :=
  h.append (by decide)

/-! ## Names with parts -/

theorem chars_laterText {ws : List String} (h : ∀ w ∈ ws, IsWord w) :
    ∀ c ∈ (laterText ws).toList, isNameChar c = true ∨ c = ':' := by
  induction ws with
  | nil => exact fun c hc => absurd hc List.not_mem_nil
  | cons w ws ih =>
    intro c hc
    simp only [laterText, String.toList_append, List.mem_append] at hc
    rcases hc with (hc | hc) | hc
    · exact .inr (by simpa using hc)
    · exact .inl ((h w List.mem_cons_self).2 c hc)
    · exact ih (fun v hv => h v (List.mem_cons_of_mem w hv)) c hc

/-- A name with parts holds colons and nothing else but the characters of names. -/
theorem IsQualified.chars {text : String} (h : IsQualified text) :
    ∀ c ∈ text.toList, isNameChar c = true ∨ c = ':' := by
  obtain ⟨rooted, w, ws, rfl, hw, hws⟩ := h
  intro c hc
  simp only [String.toList_append, List.mem_append] at hc
  rcases hc with (hc | hc) | hc
  · cases rooted with
    | false => cases hc
    | true => exact .inr (by simpa using hc)
  · exact .inl (hw.2 c hc)
  · exact chars_laterText hws c hc

/-- The test of a function with parts in its name has a name just if there is but one part. -/
theorem IsQualified.isIdentifier_testName_iff {text : String} (h : IsQualified text) :
    IsIdentifier (Scaffold.testName text) ↔ ':' ∉ text.toList := by
  have hascii : ∀ c ∈ text.toList, c.toNat < 0x80 := fun c hc =>
    (h.chars c hc).elim ascii_of_isNameChar fun hc => by rw [hc]; decide
  rw [Scaffold.isIdentifier_testName_iff hascii]
  constructor
  · intro hall hcolon
    exact absurd (hall ':' hcolon) (by decide)
  · intro hcolon c hc
    rcases h.chars c hc with hname | rfl
    · exact hname
    · exact absurd hc hcolon

/-! ## Operators -/

theorem ne_nil_of_mem_words {cs w : List Char} (h : w ∈ words cs) : w ≠ [] := by
  fun_induction words cs with
  | case1 => cases h
  | case2 c r hb ih => exact ih h
  | case3 c r hb ih =>
    rcases List.mem_cons.mp h with rfl | h
    · exact List.cons_ne_nil _ _
    · exact ih h

/-- What an operator rule reads is known for an operator by its name, a conversion as well. -/
theorem isOperator_of_operatorName? {symbol : List Token} {f : Signature}
    (h : operatorName? symbol = some f.name) : f.isOperator = true := by
  have hbehind : ∀ cs : List Char, cs.head?.any TypeExpr.isIdentChar = false →
      f.name.toList = "operator".toList ++ cs → f.isOperator = true := by
    intro cs hcs hname
    have hafter : after? "operator" f.name.toList = some cs := by
      rw [hname, after?, if_pos (List.isPrefixOf_iff_prefix.mpr (List.prefix_append _ _)),
        List.drop_left]
    rw [Signature.isOperator, hafter]
    simp [hcs]
  unfold operatorName? at h
  cases hw : words (spelled symbol) with
  | nil => rw [hw] at h; cases h
  | cons w ws =>
    rw [hw] at h
    simp only at h
    split at h
    · have hblank : TypeExpr.isIdentChar ' ' = false := by decide
      refine hbehind (' ' :: [' '].intercalate (w :: ws)) hblank ?_
      simp only [← Option.some.inj h, String.toList_append, String.toList_ofList]
      rfl
    · next hident =>
      have hne : w ≠ [] := ne_nil_of_mem_words (hw ▸ List.mem_cons_self)
      refine hbehind (w :: ws).flatten ?_ ?_
      · cases w with
        | nil => exact absurd rfl hne
        | cons c cs => simpa using hident
      · simp only [← Option.some.inj h, String.toList_append, String.toList_ofList]

theorem NamesRead.qualified {ts : List Token} {rule : Rule} {f : Signature}
    (h : NamesRead ts rule f) (ho : f.isOperator = false) : IsQualified f.name := by
  rcases h.sort with hr | hr | hr
  · have hop : f.isOperator = true := by
      rw [Signature.isOperator, h.callOperator hr]
      decide
    rw [hop] at ho
    cases ho
  · obtain ⟨symbol, hs⟩ := h.operator hr
    rw [isOperator_of_operatorName? hs] at ho
    cases ho
  · exact (h.function hr).1

/-! ## The names that a reading reports -/

/-- What is reported as a function and is no operator has a name with parts. -/
theorem qualified_of_mem {source : String} {c : Callback} {f : Signature}
    (hc : c ∈ (parse source).callbacks)
    (hf : c.event = .functionDecl f ∨ c.event = .functionDef f) (ho : f.isOperator = false) :
    IsQualified f.name := by
  have hk : c.event.isStructural = true := by rcases hf with hf | hf <;> rw [hf] <;> rfl
  obtain ⟨s, line, later, es, t, -, -, hs, hmem⟩ := exists_step_of_mem_callbacks hc hk
  obtain ⟨-, rule, k, rest, hfound, hevent⟩ := State.found?_of_mem_step hs hmem hk
  rcases hevent with he | ⟨d, he⟩ | he
  · obtain ⟨terminated, rfl⟩ := exists_function_of_event? he hf
    exact (NamesRead.of_recognize? (Rule.recognize?_of_match? hfound).2).qualified ho
  · rcases hf with hf | hf <;> rw [hf] at he <;> cases he
  · rcases hf with hf | hf <;> rw [hf] at he <;> cases he

/-- A class that starts has a name. -/
theorem identifier_of_classStart {source : String} {c : Callback} {name : String}
    (hc : c ∈ (parse source).callbacks) (he : c.event = .classStart name) : IsIdentifier name := by
  have hk : c.event.isStructural = true := by rw [he]; rfl
  -- The scope of the class is on top, and its head has been reported.
  obtain ⟨fs, hm, -⟩ := parse_moves source
  have hshows := shows_moves hm _ (mem_calls hc hk)
  rw [he] at hshows
  obtain ⟨body, below, hscopes, rfl, -⟩ := hshows
  have hstruct : c ∈ structural (parse source).callbacks := List.mem_filter.mpr ⟨hc, hk⟩
  obtain ⟨before, after, hsplit⟩ := List.append_of_mem hstruct
  obtain ⟨a, ha, heq⟩ := List.mem_map.mp
    ((backed_of_mem hsplit).recorded body below (hscopes ▸ List.suffix_refl _))
  obtain ⟨hhead, -⟩ := Prod.mk.inj heq
  have hmem : a ∈ structural (parse source).callbacks := by
    rw [hsplit]
    exact List.mem_append_left _ ha
  obtain ⟨cs, t, ht, hname, htext⟩ := exists_name_of_classHead (List.mem_filter.mp hmem).1 hhead
  have hword := (worded_tokens cs).isWord ht hname
  simp only [Token.isName, Token.startsWithDigit, Bool.and_eq_true, Bool.not_eq_true'] at hname
  rw [show t.text = body.name from htext] at hword hname
  refine ⟨?_, hword.2⟩
  cases hchars : body.name.toList with
  | nil => exact absurd hchars hword.1
  | cons d ds =>
    rw [hchars] at hname
    exact isNameStart_of_isNameChar (hword.2 d (hchars ▸ List.mem_cons_self)) hname.2

/-! ## The names that a scaffold holds -/

/-- The function that a test is written for, if it can be reached from outside. Operators have
none, and constructors share one. -/
def Event.tested? : Event → Option String
  | .functionDecl f | .functionDef f => if f.isOperator then none else some f.name
  | .constructorDecl .. | .constructorDef .. => some "Constructor"
  | _ => none

/-- The function that a test is written for when the callback is made. -/
def Callback.tested? (c : Callback) : Option String :=
  if c.scopes.isPublic then c.event.tested? else none

namespace Scaffold

def suites (s : Scaffold) : List Suite :=
  s.parts.filterMap fun
    | .suite x => some x
    | .includes _ | .usingNamespace _ => none

variable {cs ds : List Callback} {s t : Scaffold} {c : Callback} {header : String}

theorem suites_add (part : Part) (s : Scaffold) :
    (s.add part).suites = s.suites ++ match part with
      | .suite x => [x]
      | .includes _ | .usingNamespace _ => [] := by
  cases part <;> simp [suites, add]

/-- What a callback does to a scaffold: it adds a test, starts or ends a class, ends the parse, or
leaves all names as they are. -/
inductive Takes (header : String) (s : Scaffold) (c : Callback) : Scaffold → Prop
  | nothing : c.event.tested? = none → Takes header s c s
  | part (p : Part) : c.event.tested? = none → (∀ x, p ≠ .suite x) → Takes header s c (s.add p)
  | test {function : String} : c.event.tested? = some function →
      Takes header s c (s.addTest c function)
  | start {name : String} : c.event = .classStart name → Takes header s c
      { s with classes := ⟨⟨name, []⟩, ScopeStack.isPublic c.scopes.tail⟩ :: s.classes }
  | stop {name : String} : c.event = .classEnd name → Takes header s c (s.endClass name)
  | finish : c.event = .parseEnd → Takes header s c (s.endParse header)

theorem takes_next (header : String) (s : Scaffold) (c : Callback) :
    Takes header s c (s.next header c) := by
  rw [next]
  cases he : c.event with
  | parseStart => exact .part _ (by rw [he]; rfl) (by simp)
  | parseEnd => exact .finish he
  | nameSpace name =>
    simp only
    split
    · exact .nothing (by rw [he]; rfl)
    · exact .part _ (by rw [he]; rfl) (by simp)
  | classStart name => exact .start he
  | classEnd name => exact .stop he
  | functionDecl f | functionDef f =>
    simp only
    split
    · next ho => exact .nothing (by rw [he, Event.tested?, if_pos ho])
    · next ho => exact .test (by rw [he, Event.tested?, if_neg ho])
  | constructorDecl | constructorDef => exact .test (by rw [he]; rfl)
  | _ => exact .nothing (by rw [he]; rfl)

/-- The tests are distinct, and each of them is for a function that was reported. -/
structure TestsOf (cs : List Callback) (tests : List String) : Prop where
  nodup : tests.Nodup
  reported : ∀ t ∈ tests, ∃ c ∈ cs, ∃ function, c.tested? = some function ∧ t = testName function

/-- The suite has a name and holds such tests. -/
structure SuiteOf (cs : List Callback) (x : Suite) : Prop where
  name : IsIdentifier x.name
  tests : TestsOf cs x.tests

/-- All suites are such, written or not. -/
structure NamedBy (cs : List Callback) (s : Scaffold) : Prop where
  written : ∀ x ∈ s.suites, SuiteOf cs x
  opened : ∀ k ∈ s.classes, SuiteOf cs k.suite
  free : TestsOf cs s.freeTests

theorem testsOf_nil : TestsOf cs [] :=
  ⟨List.nodup_nil, fun _ ht => absurd ht List.not_mem_nil⟩

theorem TestsOf.addTest {tests : List String} (h : TestsOf cs tests) (hc : c ∈ cs)
    {function : String} (hf : c.tested? = some function) :
    TestsOf cs (Suite.addTest (testName function) tests) := by
  refine ⟨Suite.nodup_addTest h.nodup, fun t ht => ?_⟩
  unfold Suite.addTest at ht
  split at ht
  · exact h.reported t ht
  · rcases List.mem_append.mp ht with ht | ht
    · exact h.reported t ht
    · exact ⟨c, hc, function, hf, List.mem_singleton.mp ht⟩

theorem namedBy_start : NamedBy cs Scaffold.start :=
  ⟨fun _ hx => absurd hx List.not_mem_nil, fun _ hk => absurd hk List.not_mem_nil, testsOf_nil⟩

theorem NamedBy.add (h : NamedBy cs s) {part : Part} (hp : ∀ x, part = .suite x → SuiteOf cs x) :
    NamedBy cs (s.add part) := by
  refine ⟨fun x hx => ?_, h.opened, h.free⟩
  rw [suites_add, List.mem_append] at hx
  rcases hx with hx | hx
  · exact h.written x hx
  · cases part with
    | suite y => exact List.mem_singleton.mp hx ▸ hp y rfl
    | includes | usingNamespace => cases hx

theorem NamedBy.addTest (h : NamedBy cs s) (hc : c ∈ cs) {function : String}
    (hf : c.scopes.isPublic = true → c.tested? = some function) :
    NamedBy cs (s.addTest c function) := by
  unfold Scaffold.addTest
  split
  · next hpublic =>
    have hf := hf hpublic
    simp only
    split
    · exact ⟨h.written, h.opened, h.free.addTest hc hf⟩
    · next k ks hk =>
      have hopened := h.opened
      rw [hk, List.forall_mem_cons] at hopened
      refine ⟨h.written, List.forall_mem_cons.mpr ⟨?_, hopened.2⟩, h.free⟩
      exact ⟨hopened.1.name, hopened.1.tests.addTest hc hf⟩
  · exact h

theorem NamedBy.endClass (h : NamedBy cs s) (name : String) : NamedBy cs (s.endClass name) := by
  unfold Scaffold.endClass
  split
  · exact ⟨h.written, h.opened, h.free⟩
  · next k ks hk =>
    have hopened := h.opened
    rw [hk, List.forall_mem_cons] at hopened
    have hleft : NamedBy cs { s with classes := ks } := ⟨h.written, hopened.2, h.free⟩
    simp only
    split
    · exact ⟨hleft.written, hleft.opened, hleft.free⟩
    · split
      · refine hleft.add ?_
        rintro x ⟨⟩
        exact hopened.1
      · exact hleft

/-- The suite for what is outside all classes has the name of the header. -/
theorem NamedBy.endParse (h : NamedBy cs s) (hh : IsIdentifier (headerSuite header)) :
    NamedBy cs (s.endParse header) := by
  unfold Scaffold.endParse
  generalize headerSuite header = name at hh ⊢
  split
  · exact h
  · have hadd : NamedBy cs (s.add (.suite ⟨name, s.freeTests⟩)) := by
      refine h.add fun x hx => ?_
      obtain rfl := Part.suite.inj hx
      exact ⟨hh, h.free⟩
    exact ⟨hadd.written, h.opened, testsOf_nil⟩

/-- A callback adds a suite under the name of a class or a test for the function that it reports. -/
theorem namedBy_next (hh : IsIdentifier (headerSuite header)) (h : NamedBy cs s) (hc : c ∈ cs)
    (hstart : ∀ name, c.event = .classStart name → IsIdentifier name) :
    NamedBy cs (s.next header c) := by
  have htakes := takes_next header s c
  generalize s.next header c = t at htakes
  cases htakes with
  | nothing => exact h
  | part p _ hp => exact h.add fun x hx => absurd hx (hp x)
  | test hf => exact h.addTest hc fun hp => by rw [Callback.tested?, if_pos hp, hf]
  | start he =>
    exact ⟨h.written, List.forall_mem_cons.mpr ⟨⟨hstart _ he, testsOf_nil⟩, h.opened⟩, h.free⟩
  | stop => exact h.endClass _
  | finish => exact h.endParse hh

theorem namedBy_after (hh : IsIdentifier (headerSuite header)) (h : NamedBy cs s)
    (hds : ∀ c ∈ ds, c ∈ cs ∧ ∀ name, c.event = .classStart name → IsIdentifier name) :
    NamedBy cs (s.after header ds) := by
  induction ds generalizing s with
  | nil => exact h
  | cons d ds ih =>
    obtain ⟨hd, hds⟩ := List.forall_mem_cons.mp hds
    exact ih (namedBy_next hh h hd.1 hd.2) hds

end Scaffold

open Scaffold

/-- A function that a test is written for has a name with parts. -/
theorem qualified_of_tested? {source : String} {c : Callback} {function : String}
    (hc : c ∈ (parse source).callbacks) (h : c.event.tested? = some function) :
    IsQualified function := by
  cases he : c.event with
  | functionDecl f | functionDef f =>
    rw [he, Event.tested?] at h
    split at h
    · cases h
    · next ho =>
      cases h
      exact qualified_of_mem hc (by simp [he]) (Bool.eq_false_iff.mpr ho)
  | constructorDecl | constructorDef =>
    rw [he] at h
    cases h
    have hword : IsWord "Constructor" := ⟨by decide, by decide⟩
    exact ⟨false, "Constructor", [], rfl, hword, fun v hv => absurd hv List.not_mem_nil⟩
  | _ => rw [he] at h; cases h

theorem Callback.event_of_tested? {c : Callback} {function : String}
    (h : c.tested? = some function) : c.event.tested? = some function := by
  unfold Callback.tested? at h
  split at h
  · exact h
  · cases h

/-- However many headers are read with a scaffold for a file with a name, each class that it writes
has a name, and its tests are distinct. A test is written for a function that can be reached from
outside and is no operator, and the test has a name just if the function is not named with the marks
`::`; so all tests have names when no such function is reported under a name with these. -/
theorem test_names {header : String}
    (h : IsIdentifier (Path.stem (Skeleton.includeName header))) (sources : List String) :
    let cs := callbacksOfAll sources
    (∀ x ∈ (ofCallbacks header cs).suites,
      IsIdentifier x.fixture ∧ x.tests.Nodup ∧
        ∀ t ∈ x.tests, ∃ c ∈ cs, ∃ function, c.tested? = some function ∧ t = testName function ∧
          (IsIdentifier t ↔ ':' ∉ function.toList)) ∧
    ((∀ c ∈ cs, ∀ function, c.tested? = some function → ':' ∉ function.toList) →
      ∀ x ∈ (ofCallbacks header cs).suites, ∀ t ∈ x.tests, IsIdentifier t) := by
  intro cs
  have hmem : ∀ c ∈ cs, ∃ source, c ∈ (parse source).callbacks := fun c hc => by
    obtain ⟨source, -, hc⟩ := List.mem_flatMap.mp hc
    exact ⟨source, hc⟩
  have hnamed : NamedBy cs (ofCallbacks header cs) :=
    namedBy_after (identifier_headerSuite h) namedBy_start fun c hc => ⟨hc, fun name he => by
      obtain ⟨source, hsource⟩ := hmem c hc
      exact identifier_of_classStart hsource he⟩
  have hsuites : ∀ x ∈ (ofCallbacks header cs).suites,
      IsIdentifier x.fixture ∧ x.tests.Nodup ∧
        ∀ t ∈ x.tests, ∃ c ∈ cs, ∃ function, c.tested? = some function ∧ t = testName function ∧
          (IsIdentifier t ↔ ':' ∉ function.toList) := by
    intro x hx
    obtain ⟨hname, hnodup, hreported⟩ := hnamed.written x hx
    refine ⟨Suite.identifier_fixture hname, hnodup, fun t ht => ?_⟩
    obtain ⟨c, hc, function, hf, rfl⟩ := hreported t ht
    obtain ⟨source, hsource⟩ := hmem c hc
    have hqualified := qualified_of_tested? hsource (Callback.event_of_tested? hf)
    exact ⟨c, hc, function, hf, rfl, hqualified.isIdentifier_testName_iff⟩
  refine ⟨hsuites, fun hplain x hx t ht => ?_⟩
  obtain ⟨c, hc, function, hf, -, hiff⟩ := (hsuites x hx).2.2 t ht
  exact hiff.mpr (hplain c hc function hf)

/-- A function that is defined outside its class. -/
def outsideMember : String :=
  "void Circle::area() \x7b \x7d\n"

/-- Its test is named after it and its class, with the marks between them. -/
theorem test_names_outsideMember :
    ∃ x ∈ (ofCallbacks "geometry.h" (callbacksOfAll [outsideMember])).suites,
      x.fixture = "GeometryTest" ∧ IsIdentifier x.fixture ∧ x.tests = ["testCircle::area"] ∧
        ¬ IsIdentifier "testCircle::area" := by
  have hx : ⟨"Geometry", ["testCircle::area"]⟩ ∈
      (ofCallbacks "geometry.h" (callbacksOfAll [outsideMember])).suites := by decide +kernel
  have hfunction : ∀ c ∈ callbacksOfAll [outsideMember], ∀ function ∈ c.tested?,
      ':' ∈ function.toList := by decide +kernel
  obtain ⟨hfixture, -, htests⟩ := (test_names (by decide) [outsideMember]).1 _ hx
  obtain ⟨c, hc, function, hf, -, hiff⟩ := htests "testCircle::area" (by decide)
  refine ⟨_, hx, by decide, hfixture, rfl, fun hid => ?_⟩
  exact hiff.mp hid (hfunction c hc function hf)

end HeaderOutline
