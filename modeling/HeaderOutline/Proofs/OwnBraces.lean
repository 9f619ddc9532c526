import HeaderOutline.Proofs.Conservation
import HeaderOutline.Proofs.Recognition
/-!
# A brace and its head

A head that has been read waits on top of the scopes until a brace opens it, and any brace does. It
is the head's own brace when nothing but lines that begin with `#` is taken in between. Whether that
is so can be told from the text behind the head: `BodyFollows` says that the first brace or
semicolon there is an opening brace, and that no declaration stands in front of it.

Nothing in the reading ensures it. A head at the end of its line, or one with template arguments
behind its name, is pushed whatever comes next; when that is a semicolon, the head stays, and the
next brace opens it.

The way from a head to the brace that opens it is `Waits`: steps along which the scopes never go
below the head. A frame that has been opened stays so on such a way (`Move.openedAt`), so the brace
that opens the head is the first one at its level.

Results:
* `matchIn?_openBrace_iff`, `matchIn?_eq_none_iff`: where a brace is matched, and where nothing is.
* `Waits.bodyFollows`, `BodyFollows.forall_isHashLine`: the two directions, along the way.
* `own_brace_of_bodyFollows`: a head whose body follows is opened by its own brace, and no statement
  comes in between; what else is taken before the brace of a head, tells that no body follows.
-/
namespace HeaderOutline
open Text Declaration Brace

/-! ## What stands at the front of a fragment -/

namespace Rule

/-- The rules for labels, heads and declarations. -/
def declares : Rule → Bool
  | define | directive | openBrace | closeBrace | statement => false
  | _ => true

variable {context : Context} {className : Option String} {cs rest : List Char} {rule : Rule}
  {k : Construct}

/-- The rules before the one that matches refuse the fragment. -/
theorem earlier_of_match? (h : match? context className cs = some (rule, k, rest)) :
    ∀ r ∈ all.takeWhile (· ≠ rule), r.appliesIn context = true →
      recognize? className cs r = none := by
  intro r hr ha
  have hall : all = all.takeWhile (· ≠ rule) ++ rule :: (all.dropWhile (· ≠ rule)).tail := by
    cases rule <;> rfl
  rw [match?, hall, List.filter_append, List.findSome?_append] at h
  have hmem : r ∈ (all.takeWhile (· ≠ rule)).filter (appliesIn context) :=
    List.mem_filter.mpr ⟨hr, ha⟩
  cases hf : ((all.takeWhile (· ≠ rule)).filter (appliesIn context)).findSome?
      (fun r => (recognize? className cs r).map (r, ·)) with
  | none => exact Option.map_eq_none_iff.mp (List.findSome?_eq_none_iff.mp hf r hmem)
  | some found =>
    -- An earlier rule would have been the one that matches.
    rw [hf] at h
    obtain rfl : found = (rule, k, rest) := Option.some.inj h
    obtain ⟨q, hq, heq⟩ := List.exists_of_findSome?_eq_some hf
    obtain ⟨_, -, heq⟩ := Option.map_eq_some_iff.mp heq
    obtain rfl : q = rule := (Prod.mk.inj heq).1
    simpa using List.mem_takeWhile_imp (List.mem_filter.mp hq).1

theorem refuses_of_match?_eq_none (h : match? context className cs = none) :
    ∀ r, r.appliesIn context = true → recognize? className cs r = none := fun r ha =>
  Option.map_eq_none_iff.mp
    (List.findSome?_eq_none_iff.mp h r (List.mem_filter.mpr ⟨by cases r <;> decide, ha⟩))

theorem upTo?_isSome {text : String} {ts : List Token} :
    (upTo? text ts).isSome = ((ts.find? isDelimiter).map (·.text) == some text) := by
  rw [List.find?_eq_head?_dropWhile_not, upTo?]
  cases ts.dropWhile fun t => !isDelimiter t with
  | nil => rfl
  | cons t ts =>
    by_cases ht : t.text = text <;> simp [skip?, ht]

end Rule

/-- A label, a head or a declaration stands at the front of the fragment. -/
def declaresIn (fs : ScopeStack) (cs : List Char) : Bool :=
  Rule.all.any fun rule => rule.declares && rule.appliesIn fs.context &&
    (rule.recognize? (fs.topClass?.map (·.name)) cs).isSome

def firstDelimiter? (cs : List Char) : Option String :=
  ((Token.tokens cs).find? Rule.isDelimiter).map (·.text)

def matchIn? (fs : ScopeStack) (cs : List Char) : Option (Rule × Construct × List Char) :=
  Rule.match? fs.context (fs.topClass?.map (·.name)) cs

section Matches

variable {fs : ScopeStack} {cs : List Char}

theorem declaresIn_eq_false :
    declaresIn fs cs = false ↔ ∀ rule : Rule, rule.declares = true →
      rule.appliesIn fs.context = true →
        rule.recognize? (fs.topClass?.map (·.name)) cs = none := by
  have hall : ∀ rule : Rule, rule ∈ Rule.all := by intro rule; cases rule <;> decide
  simp only [declaresIn, List.any_eq_false, Bool.and_eq_true, not_and, Bool.not_eq_true,
    Option.isSome_eq_false_iff, Option.isNone_iff_eq_none, and_imp]
  exact ⟨fun h rule hd ha => h rule (hall rule) hd ha, fun h rule _ hd ha => h rule hd ha⟩

theorem isSome_recognize?_delimiter (className : Option String) (cs : List Char) :
    (Rule.recognize? className cs .openBrace).isSome = (firstDelimiter? cs == some "\x7b") ∧
      (Rule.recognize? className cs .closeBrace).isSome = (firstDelimiter? cs == some "\x7d") ∧
      (Rule.recognize? className cs .statement).isSome = (firstDelimiter? cs == some ";") := by
  simp [Rule.recognize?, Rule.readText, Rule.throughClose?, firstDelimiter?, Rule.upTo?_isSome]

/-- Without a mark `#` and a declaration only the rules for delimiters are left. -/
theorem recognize?_eq_none_of_not_declaresIn (hmark : afterMark? '#' cs = none)
    (hdeclares : declaresIn fs cs = false) {rule : Rule}
    (hr : rule ∉ [Rule.openBrace, .closeBrace, .statement])
    (ha : rule.appliesIn fs.context = true) :
    rule.recognize? (fs.topClass?.map (·.name)) cs = none := by
  cases hd : rule.declares with
  | true => exact declaresIn_eq_false.mp hdeclares rule hd ha
  | false =>
    cases rule with
    | define => simp [Rule.recognize?, Rule.define?, hmark]
    | directive => simp [Rule.recognize?, Rule.directive?, hmark]
    | openBrace | closeBrace | statement => exact absurd hr (by decide)
    | _ => cases hd

/-- A brace is matched where no mark `#` and no declaration stands, and where no other delimiter
comes first. -/
theorem matchIn?_openBrace_iff :
    (∃ rest, matchIn? fs cs = some (.openBrace, .openBrace, rest)) ↔
      afterMark? '#' cs = none ∧ declaresIn fs cs = false ∧ firstDelimiter? cs = some "\x7b" := by
  have hrec : (∃ rest, Rule.recognize? (fs.topClass?.map (·.name)) cs .openBrace =
      some (.openBrace, rest)) ↔ firstDelimiter? cs = some "\x7b" := by
    rw [← beq_iff_eq, ← (isSome_recognize?_delimiter (fs.topClass?.map (·.name)) cs).1,
      Option.isSome_iff_exists]
    simp [Rule.recognize?, Rule.readText]
  constructor
  · rintro ⟨rest, h⟩
    have hearlier := Rule.earlier_of_match? h
    refine ⟨?_, declaresIn_eq_false.mpr fun rule hd ha => hearlier rule ?_ ha, ?_⟩
    · exact Option.map_eq_none_iff.mp (hearlier .directive (by decide) rfl)
    · revert hd; cases rule <;> decide
    · exact hrec.mp ⟨rest, (Rule.recognize?_of_match? h).2⟩
  · rintro ⟨hmark, hdeclares, hfirst⟩
    obtain ⟨rest, h⟩ := hrec.mpr hfirst
    refine ⟨rest, Rule.match?_of_recognize? rfl h fun r hr ha => ?_⟩
    refine recognize?_eq_none_of_not_declaresIn hmark hdeclares ?_ ha
    revert hr
    cases r <;> decide

/-- Nothing is matched where no mark `#`, no declaration and no delimiter stands. -/
theorem matchIn?_eq_none_iff :
    matchIn? fs cs = none ↔
      afterMark? '#' cs = none ∧ declaresIn fs cs = false ∧ firstDelimiter? cs = none := by
  obtain ⟨hopen, hclose, hend⟩ := isSome_recognize?_delimiter (fs.topClass?.map (·.name)) cs
  constructor
  · intro h
    have hrefuses := Rule.refuses_of_match?_eq_none h
    refine ⟨Option.map_eq_none_iff.mp (hrefuses .directive rfl),
      declaresIn_eq_false.mpr fun rule _ ha => hrefuses rule ha, ?_⟩
    rw [hrefuses _ rfl] at hopen hclose hend
    cases hd : (Token.tokens cs).find? Rule.isDelimiter with
    | none => simp [firstDelimiter?, hd]
    | some t =>
      have ht := List.find?_some hd
      simp only [firstDelimiter?, hd, Option.map_some] at hopen hclose hend
      simp_all [Rule.isDelimiter]
  · rintro ⟨hmark, hdeclares, hno⟩
    refine List.findSome?_eq_none_iff.mpr fun r hr => Option.map_eq_none_iff.mpr ?_
    by_cases hmem : r ∈ [Rule.openBrace, .closeBrace, .statement]
    · simp only [List.mem_cons, List.not_mem_nil, or_false] at hmem
      rcases hmem with rfl | rfl | rfl <;> simp_all
    · exact recognize?_eq_none_of_not_declaresIn hmark hdeclares hmem (List.mem_filter.mp hr).2

/-! ## Lines that begin with `#` -/

def Construct.isHashLine : Construct → Bool
  | .define .. | .directive => true
  | _ => false

/-- A statement, a declaration or an enum that a semicolon ends. -/
def Construct.endsStatement : Construct → Bool
  | .statement | .enumHead | .function _ true | .constructor _ true | .destructor _ true => true
  | _ => false

theorem Construct.endsStatement_of_isHashLine {k : Construct} (h : k.isHashLine = true) :
    k.endsStatement = false := by
  cases k <;> first | rfl | cases h

/-- Only the rules for `#` recognize a line that begins with it. -/
theorem Rule.isHashLine_of_recognize? {className : Option String} {rest : List Char}
    {k : Construct} {rule : Rule} (h : recognize? className cs rule = some (k, rest)) :
    k.isHashLine = (rule == .define || rule == .directive) := by
  cases makes_of_recognize? h <;> rfl

theorem matchIn?_of_define? (fs : ScopeStack) {k : Construct} {rest : List Char}
    (h : Rule.define? cs = some (k, rest)) : matchIn? fs cs = some (.define, k, rest) :=
  Rule.match?_of_recognize? rfl h fun r hr _ => absurd hr (by cases r <;> decide)

theorem matchIn?_of_directive (fs : ScopeStack) (hd : Rule.define? cs = none)
    (hmark : afterMark? '#' cs ≠ none) :
    matchIn? fs cs = some (.directive, .directive, []) := by
  obtain ⟨rest, hmark⟩ := Option.ne_none_iff_exists'.mp hmark
  refine Rule.match?_of_recognize? rfl ?_ fun r hr _ => ?_
  · simp [Rule.recognize?, Rule.directive?, hmark]
  · obtain rfl : r = .define := by revert hr; cases r <;> decide
    exact hd

/-- A line that begins with `#` is a macro, or else a directive. -/
theorem matchIn?_isHashLine {k : Construct} {rest : List Char} {rule : Rule}
    (h : matchIn? fs cs = some (rule, k, rest)) (hk : k.isHashLine = true) :
    (∃ name value, k = .define name value ∧ Rule.define? cs = some (k, rest)) ∨
      k = .directive ∧ Rule.define? cs = none ∧ afterMark? '#' cs ≠ none := by
  have hr := (Rule.recognize?_of_match? h).2
  rw [Rule.isHashLine_of_recognize? hr, Bool.or_eq_true, beq_iff_eq, beq_iff_eq] at hk
  rcases hk with rfl | rfl
  · obtain ⟨name, value, rfl⟩ := Rule.exists_of_define? hr
    exact .inl ⟨name, value, rfl, hr⟩
  · have hd := Rule.earlier_of_match? h .define (by decide) rfl
    obtain ⟨_, hmark, heq⟩ := Option.map_eq_some_iff.mp hr
    exact .inr ⟨(Prod.mk.inj heq).1.symm, hd, by simp [hmark]⟩

end Matches

/-! ## The text behind a head -/

/-- Behind a head on top of the scopes comes its body: lines that begin with `#` passed over and
lines joined until they hold one, the first brace or semicolon is an opening brace, and no
declaration stands in front of it. -/
inductive BodyFollows (fs : ScopeStack) : List SourceLine → Prop
  | brace {line : SourceLine} {later : List SourceLine} : afterMark? '#' line.text = none →
      declaresIn fs line.text = false → firstDelimiter? line.text = some "\x7b" →
        BodyFollows fs (line :: later)
  | joined {line next : SourceLine} {more : List SourceLine} : afterMark? '#' line.text = none →
      declaresIn fs line.text = false → firstDelimiter? line.text = none →
        BodyFollows fs (⟨line.number, line.text ++ ' ' :: next.text⟩ :: more) →
          BodyFollows fs (line :: next :: more)
  | directive {line : SourceLine} {later : List SourceLine} : Rule.define? line.text = none →
      afterMark? '#' line.text ≠ none → BodyFollows fs later → BodyFollows fs (line :: later)
  | define {line : SourceLine} {later : List SourceLine} {name : String} {value rest : List Char} :
      Rule.define? line.text = some (.define name value, rest) →
        BodyFollows fs (State.joinLines value later).2 → BodyFollows fs (line :: later)

theorem bodyFollows_of_brace (fs : ScopeStack) (number : Nat) (cs : List Char)
    (later : List SourceLine) : BodyFollows fs (⟨number, '\x7b' :: cs⟩ :: later) := by
  have hrefuses := Rule.refuses_delimiter (d := '\x7b') (by decide) (fs.topClass?.map (·.name)) cs
  refine .brace rfl (declaresIn_eq_false.mpr fun rule hd _ => hrefuses rule ?_) ?_
  · revert hd; cases rule <;> decide
  · have htokens := Token.tokens_of_next? (Rule.next?_delimiter (d := '\x7b') (by decide) cs)
    simp only [firstDelimiter?, htokens]
    rfl

/-- A block is told from a prefix by the brace behind it. -/
theorem Rule.exists_brace_of_linkage {className : Option String} {cs rest : List Char} {rule : Rule}
    (h : recognize? className cs rule = some (.linkage true, rest)) :
    ∃ r, rest = '\x7b' :: r := by
  cases makes_of_recognize? h
  simp only [recognize?, linkage?, Option.bind_eq_bind, Option.bind_eq_some_iff, Option.some.injEq,
    Prod.mk.injEq, Construct.linkage.injEq, decide_eq_true_eq] at h
  obtain ⟨_, -, _, -, c, -, hhead, rfl⟩ := h
  exact ⟨_, List.eq_cons_of_mem_head? hhead⟩

/-! ## From a head to its brace -/

/-- The frame at the place `n`, counted from the outermost one, is opened. -/
def OpenedAt (n : Nat) (fs : ScopeStack) : Prop :=
  ∃ f gs, f :: gs <:+ fs ∧ gs.length + 1 = n ∧ f.isOpened = true

/-- A move that does not close the frame leaves it opened. -/
theorem Move.openedAt {n : Nat} {fs gs : ScopeStack} {cs : List Call} (h : Move fs cs gs)
    (hn : n ≤ gs.length) (ho : OpenedAt n fs) : OpenedAt n gs := by
  obtain ⟨f, hs, hsuffix, hlength, hf⟩ := ho
  cases h with
  | stay | define | plain => exact ⟨f, hs, hsuffix, hlength, hf⟩
  | linkage | nameSpace | classHead | body | skips =>
    exact ⟨f, hs, hsuffix.trans (List.suffix_cons ..), hlength, hf⟩
  | access level =>
    unfold ScopeStack.setAccess
    split
    · next c fs' =>
      rcases List.suffix_cons_iff.mp hsuffix with heq | hsuffix
      · obtain ⟨rfl, rfl⟩ := List.cons.inj heq
        exact ⟨_, hs, List.suffix_refl _, hlength, hf⟩
      · exact ⟨f, hs, hsuffix.trans (List.suffix_cons ..), hlength, hf⟩
    · exact ⟨f, hs, hsuffix, hlength, hf⟩
  | opens hu =>
    rcases List.suffix_cons_iff.mp hsuffix with heq | hsuffix
    · obtain ⟨rfl, rfl⟩ := List.cons.inj heq
      rw [hf] at hu
      cases hu
    · exact ⟨f, hs, hsuffix.trans (List.suffix_cons ..), hlength, hf⟩
  | closes =>
    have hle : (f :: hs).length ≤ gs.length := by rw [List.length_cons, hlength]; exact hn
    exact ⟨f, hs, List.suffix_of_suffix_length_le hsuffix
      ((List.suffix_cons ..).trans (List.suffix_append ..)) hle, hlength, hf⟩

namespace State

/-- The state after the next step, if there is one and it succeeds. -/
def next? (s : State) : Option State :=
  match s.pending with
  | [] => none
  | line :: later => (s.step line later).2.toOption

/-- Steps along which at least `n` scopes stand, and what is matched in them. -/
inductive Waits (n : Nat) : State → List Construct → State → Prop
  | refl {s : State} : n ≤ s.scopes.length → Waits n s [] s
  | next {s t u : State} {line : SourceLine} {later : List SourceLine} {ks : List Construct}
      {m : Option Construct} : n ≤ s.scopes.length → s.pending = line :: later →
        (matchIn? s.scopes line.text).map (·.2.1) = m → s.next? = some t → Waits n t ks u →
          Waits n s (m.toList ++ ks) u

/-- The next step opens the frame on top. -/
def Opens (s : State) : Prop :=
  ∃ t f fs, s.next? = some t ∧ s.scopes = f :: fs ∧ f.isOpened = false ∧
    t.scopes = f.opening :: fs

variable {n : Nat} {s t u : State} {line : SourceLine} {later : List SourceLine}
  {es : List Entry} {ks : List Construct}

theorem step_of_next? (h : s.next? = some t) (hp : s.pending = line :: later) :
    ∃ es, s.step line later = (es, .ok t) := by
  rw [next?, hp] at h
  rcases hs : s.step line later with ⟨es, e | v⟩
  · simp [hs, Except.toOption] at h
  · simp only [hs, Except.toOption, Option.some.injEq] at h
    exact ⟨es, by rw [h]⟩

theorem exists_step_of_next? (h : s.next? = some t) :
    ∃ line later es, s.pending = line :: later ∧ s.step line later = (es, .ok t) := by
  cases hp : s.pending with
  | nil => simp [next?, hp] at h
  | cons line later =>
    obtain ⟨es, hs⟩ := step_of_next? h hp
    exact ⟨line, later, es, rfl, hs⟩

theorem Waits.le_length (h : Waits n s ks t) : n ≤ s.scopes.length := by
  cases h <;> assumption

theorem Waits.openedAt (h : Waits n s ks t) (ho : OpenedAt n s.scopes) : OpenedAt n t.scopes := by
  induction h with
  | refl => exact ho
  | next _ hp _ hnext hw ih =>
    obtain ⟨es, hs⟩ := step_of_next? hnext hp
    exact ih ((move_step hs).openedAt hw.le_length ho)

/-- The brace that opens the frame at the level is the first one there. -/
theorem Waits.not_openedAt (h : Waits n s ks u) (hu : u.scopes.length = n) (ho : u.Opens) :
    ¬ OpenedAt n s.scopes := by
  intro hs
  obtain ⟨f, gs, hsuffix, hlength, hf⟩ := h.openedAt hs
  obtain ⟨_, g, gs, -, htop, hg, -⟩ := ho
  have heq := hsuffix.eq_of_length (by rw [hu, ← hlength]; rfl)
  rw [htop] at heq
  rw [(List.cons.inj heq).1, hg] at hf
  cases hf

/-! ## One step on the way -/

/-- A step joins its fragment with the next line, gives it up, or acts upon a match. -/
theorem step_cases (h : s.step line later = (es, .ok t)) :
    (matchIn? s.scopes line.text = none ∧ t.scopes = s.scopes ∧ (later = [] ∧ t.pending = [] ∨
      ∃ next more, later = next :: more ∧
        t.pending = ⟨line.number, line.text ++ ' ' :: next.text⟩ :: more)) ∨
      ∃ rule k rest, matchIn? s.scopes line.text = some (rule, k, rest) ∧
        t.pending = leftLines line later rest k ∧
        ∃ (u : State) (fs : List Entry), u.scopes = s.scopes ∧ u.act line rest k = (fs, .ok t) := by
  simp only [step, Prod.mk.injEq] at h
  obtain ⟨-, ht⟩ := h
  have hfound := found?_enter later line s
  have hscopes := scopes_enter line { s with pending := later }
  have hpending := pending_enter line { s with pending := later }
  generalize ({ s with pending := later }.enter line).2 = v at ht hfound hscopes hpending
  rcases dispatch_cases (Prod.ext rfl ht) with ⟨hm, hu⟩ | ⟨rule, k, rest, fs, hm, -, ha⟩
  · refine .inl ⟨hfound.symm.trans hm, ?_, ?_⟩
    · have hs := scopes_unmatched line v.countDispatched
      rw [hu] at hs
      exact hs.trans hscopes
    · have hp : v.countDispatched.pending = later := hpending
      unfold unmatched at hu
      rw [hp] at hu
      cases later with
      | nil => exact .inl ⟨rfl, (congrArg (·.2.pending) hu).symm.trans hp⟩
      | cons next more => exact .inr ⟨next, more, rfl, (congrArg (·.2.pending) hu).symm⟩
  · refine .inr ⟨rule, k, rest, hfound.symm.trans hm, ?_, v.countDispatched, fs, hscopes, ha⟩
    have hp : v.countDispatched.pending = later := hpending
    rw [pending_act ha, hp]

/-- A line that begins with `#` and a statement leave the scopes. -/
theorem scopes_act_eq {rest : List Char} {k : Construct}
    (hk : k.isHashLine = true ∨ k = .statement) (h : s.act line rest k = (es, .ok t)) :
    t.scopes = s.scopes := by
  rcases act_cases h with ⟨rfl, -⟩ | ⟨rfl, -⟩ | ⟨-, -, -, rfl⟩
  · simp [Construct.isHashLine] at hk
  · simp [Construct.isHashLine] at hk
  · rcases hk with hk | rfl
    · cases k <;> first | rfl | cases hk
    · rfl

theorem step_hashLine {rule : Rule} {rest : List Char} {k : Construct}
    (hm : matchIn? s.scopes line.text = some (rule, k, rest)) (hk : k.isHashLine = true)
    (h : s.step line later = (es, .ok t)) :
    t.scopes = s.scopes ∧ t.pending = leftLines line later rest k := by
  rcases step_cases h with ⟨hn, -⟩ | ⟨_, _, _, hm', hleft, v, fs, hv, ha⟩
  · rw [hm] at hn
    cases hn
  · rw [hm] at hm'
    cases hm'
    exact ⟨(scopes_act_eq (.inl hk) ha).trans hv, hleft⟩

theorem scopes_act_openBrace {rest : List Char} {f : Frame} {fs : ScopeStack}
    (hs : s.scopes = f :: fs) (hf : f.isOpened = false)
    (h : s.act line rest .openBrace = (es, .ok t)) : t.scopes = f.opening :: fs := by
  rcases act_cases h with ⟨hk, -⟩ | ⟨hk, -⟩ | ⟨-, -, -, rfl⟩
  · cases hk
  · cases hk
  · show s.openBrace.2.scopes = _
    simp [openBrace, hs, hf]

/-- A closing brace gives up the head on top. -/
theorem length_act_closeBrace {rest : List Char} {f : Frame} {fs : ScopeStack}
    (hs : s.scopes = f :: fs) (hf : f.isOpened = false)
    (h : s.act line rest .closeBrace = (es, .ok t)) : t.scopes.length ≤ fs.length := by
  rcases act_cases h with ⟨hk, -⟩ | ⟨-, _, u, hc, -, rfl⟩ | ⟨-, hk, -⟩
  · cases hk
  · show u.scopes.length ≤ _
    unfold closeBrace at hc
    simp only [hs, List.dropWhile_cons, hf, Bool.not_false, if_true] at hc
    split at hc
    · cases hc
    · next g gs hd =>
      cases hc
      have hsuffix : g :: gs <:+ fs := hd ▸ List.dropWhile_suffix _
      exact (Nat.le_succ _).trans hsuffix.length_le
  · exact absurd rfl hk

theorem matchIn?_of_opens (ho : s.Opens) :
    ∃ line later rest, s.pending = line :: later ∧
      matchIn? s.scopes line.text = some (.openBrace, .openBrace, rest) := by
  obtain ⟨t, f, fs, hnext, htop, hf, ht⟩ := ho
  obtain ⟨line, later, es, hp, hs⟩ := exists_step_of_next? hnext
  have hcount : openCount t.scopes = openCount s.scopes + 1 := by
    simp [htop, ht, openCount_cons, hf, Frame.isOpened_opening]
  rcases step_cases hs with ⟨-, hsame, -⟩ | ⟨rule, k, rest, hm, -, u, es', hu, ha⟩
  · rw [hsame] at hcount
    omega
  · rw [openCount_act ha, hu] at hcount
    have hk : k = .openBrace := by
      cases k <;> first
        | rfl
        | simp only [Construct.braces, net, Brace.value] at hcount; omega
    subst hk
    have hr := Rule.braces_of_recognize? (Rule.recognize?_of_match? hm).2
    have hrule : rule = .openBrace := by
      cases rule <;> first | rfl | cases hr
    exact ⟨line, later, rest, hp, hrule ▸ hm⟩

/-! ## The whole way -/

/-- When only lines that begin with `#` are taken before the brace of a head, its body follows. -/
theorem Waits.bodyFollows (hw : Waits n s ks u) (ho : u.Opens)
    (hk : ∀ k ∈ ks, k.isHashLine = true) : BodyFollows s.scopes s.pending := by
  induction hw with
  | refl =>
    obtain ⟨line, later, rest, hp, hm⟩ := matchIn?_of_opens ho
    obtain ⟨hmark, hdeclares, hfirst⟩ := matchIn?_openBrace_iff.mp ⟨rest, hm⟩
    exact hp ▸ .brace hmark hdeclares hfirst
  | @next s t u line later ks _ _ hp hmatch hnext _ ih =>
    subst hmatch
    obtain ⟨es, hs⟩ := step_of_next? hnext hp
    have ih := ih ho fun k hmem => hk k (List.mem_append_right _ hmem)
    rw [hp]
    rcases step_cases hs with ⟨hm, hsame, ⟨-, hnil⟩ | ⟨next, more, rfl, hleft⟩⟩ |
      ⟨rule, k, rest, hm, hleft, v, fs, hv, ha⟩
    · rw [hnil] at ih
      cases ih
    · obtain ⟨hmark, hdeclares, hfirst⟩ := matchIn?_eq_none_iff.mp hm
      rw [hsame, hleft] at ih
      exact .joined hmark hdeclares hfirst ih
    · have hhash : k.isHashLine = true := by
        refine hk k (List.mem_append_left _ ?_)
        rw [hm]
        exact List.mem_singleton.mpr rfl
      rw [hleft, scopes_act_eq (.inl hhash) ha, hv] at ih
      rcases matchIn?_isHashLine hm hhash with ⟨name, value, rfl, hd⟩ | ⟨rfl, hd, hmark⟩
      · rw [Rule.eq_nil_of_define? hd] at ih
        exact .define hd ih
      · obtain rfl : rest = [] := by
          rw [matchIn?_of_directive _ hd hmark] at hm
          cases hm
          rfl
        exact .directive hd hmark ih

/-- The way from a head on top of the scopes to the brace that opens it. -/
structure HeadWaits (s : State) (ks : List Construct) (u : State) : Prop where
  unopened : ∀ f ∈ s.scopes.head?, f.isOpened = false
  waits : Waits s.scopes.length s ks u
  level : u.scopes.length = s.scopes.length
  opens : u.Opens

namespace HeadWaits

theorem exists_top (h : HeadWaits s ks u) :
    ∃ f fs, s.scopes = f :: fs ∧ f.isOpened = false := by
  obtain ⟨_, g, gs, -, htop, -, -⟩ := h.opens
  have hlength := h.level
  cases hs : s.scopes with
  | nil => rw [hs, htop] at hlength; cases hlength
  | cons f fs => exact ⟨f, fs, rfl, h.unopened f (by rw [hs]; rfl)⟩

theorem next_cases (h : HeadWaits s ks u) (hp : s.pending = line :: later) :
    ks = [] ∨ ∃ es t ms, s.step line later = (es, .ok t) ∧ Waits s.scopes.length t ms u ∧
      ks = ((matchIn? s.scopes line.text).map (·.2.1)).toList ++ ms := by
  cases h.waits with
  | refl => exact .inl rfl
  | next _ hp' hmatch hnext hw =>
    subst hmatch
    obtain ⟨rfl, rfl⟩ := List.cons.inj (hp.symm.trans hp')
    obtain ⟨es, hs⟩ := step_of_next? hnext hp
    exact .inr ⟨_, _, _, hs, hw, rfl⟩

/-- A step that leaves the scopes leads on along the way. -/
theorem of_scopes_eq {ms : List Construct} (h : HeadWaits s ks u) (ht : t.scopes = s.scopes)
    (hw : Waits s.scopes.length t ms u) : HeadWaits t ms u := by
  rw [← ht] at hw
  exact ⟨ht ▸ h.unopened, hw, ht ▸ h.level, h.opens⟩

/-- No step on the way matches a brace. -/
theorem not_openBrace {ms : List Construct} {rule : Rule} {rest : List Char} (h : HeadWaits s ks u)
    (hs : s.step line later = (es, .ok t)) (hw : Waits s.scopes.length t ms u) :
    matchIn? s.scopes line.text ≠ some (rule, .openBrace, rest) := by
  intro hm
  obtain ⟨f, fs, htop, hf⟩ := h.exists_top
  rcases step_cases hs with ⟨hn, -⟩ | ⟨_, _, _, hm', -, v, es', hv, ha⟩
  · rw [hn] at hm; cases hm
  · rw [hm] at hm'
    cases hm'
    have ht := scopes_act_openBrace (hv.trans htop) hf ha
    refine hw.not_openedAt h.level h.opens ⟨f.opening, fs, ht ▸ List.suffix_refl _, ?_,
      f.isOpened_opening⟩
    rw [htop]
    rfl

/-- When its body follows a head, only lines that begin with `#` are taken before its brace. -/
theorem forall_isHashLine (h : HeadWaits s ks u) (hb : BodyFollows s.scopes s.pending) :
    ∀ k ∈ ks, k.isHashLine = true := by
  generalize hfs : s.scopes = fs at hb
  generalize hp : s.pending = ls at hb
  induction hb generalizing s ks with
  | brace hmark hdeclares hfirst =>
    obtain rfl | ⟨es, t, ms, hs, hw, -⟩ := h.next_cases hp
    · simp
    · obtain ⟨rest, hm⟩ := matchIn?_openBrace_iff.mpr ⟨hmark, hdeclares, hfirst⟩
      exact absurd (hfs ▸ hm) (h.not_openBrace hs hw)
  | joined hmark hdeclares hfirst _ ih =>
    obtain rfl | ⟨es, t, ms, hs, hw, rfl⟩ := h.next_cases hp
    · simp
    · have hm := matchIn?_eq_none_iff.mpr ⟨hmark, hdeclares, hfirst⟩
      rw [← hfs] at hm
      rcases step_cases hs with ⟨-, hsame, ⟨hnil, -⟩ | ⟨_, _, heq, hleft⟩⟩ | ⟨_, _, _, hm', -⟩
      · cases hnil
      · cases heq
        rw [hm]
        exact ih (h.of_scopes_eq hsame hw) (hsame.trans hfs) hleft
      · rw [hm] at hm'; cases hm'
  | directive hd hmark _ ih =>
    obtain rfl | ⟨es, t, ms, hs, hw, rfl⟩ := h.next_cases hp
    · simp
    · have hm := matchIn?_of_directive s.scopes hd hmark
      obtain ⟨hsame, hleft⟩ := step_hashLine hm rfl hs
      rw [hm]
      exact List.forall_mem_cons.mpr ⟨rfl, ih (h.of_scopes_eq hsame hw) (hsame.trans hfs) hleft⟩
  | define hd _ ih =>
    obtain rfl | ⟨es, t, ms, hs, hw, rfl⟩ := h.next_cases hp
    · simp
    · have hm := matchIn?_of_define? s.scopes hd
      obtain ⟨hsame, hleft⟩ := step_hashLine hm rfl hs
      rw [Rule.eq_nil_of_define? hd] at hleft
      rw [hm]
      exact List.forall_mem_cons.mpr ⟨rfl, ih (h.of_scopes_eq hsame hw) (hsame.trans hfs) hleft⟩

/-- Before the brace of a function nothing is taken but lines that begin with `#` and statements. -/
theorem isHashLine_or_statement (h : HeadWaits s ks u) (hc : s.scopes.context = .functionBody) :
    ∀ k ∈ ks, k.isHashLine = true ∨ k = .statement := by
  have hw := h.waits
  generalize hn : s.scopes.length = n at hw
  induction hw with
  | refl => simp
  | @next s t u line later ks _ hle hp hmatch hnext hw ih =>
    subst hmatch
    obtain ⟨es, hs⟩ := step_of_next? hnext hp
    rw [← hn] at hw
    have hnext : t.scopes = s.scopes → ∀ k ∈ ks, k.isHashLine = true ∨ k = .statement := fun ht =>
      ih (h.of_scopes_eq ht hw) (ht ▸ hc) ((congrArg List.length ht).trans hn)
    rcases step_cases hs with ⟨hm, hsame, -⟩ | ⟨rule, k, rest, hm, -, v, fs, hv, ha⟩
    · rw [hm]
      exact hnext hsame
    · rw [hm]
      -- A function is no place for declarations, and the braces would end the way.
      have hk : k.isHashLine = true ∨ k = .statement := by
        have hstands := Rule.standsIn_of_match? hm
        rw [hc] at hstands
        cases k with
        | define | directive => exact .inl rfl
        | statement => exact .inr rfl
        | openBrace => exact absurd hm (h.not_openBrace hs hw)
        | closeBrace =>
          obtain ⟨f, gs, htop, hf⟩ := h.exists_top
          have hlength := length_act_closeBrace (hv.trans htop) hf ha
          have hle := hw.le_length
          rw [htop, List.length_cons] at hle
          omega
        | _ => cases hstands
      exact List.forall_mem_cons.mpr ⟨hk, hnext ((scopes_act_eq hk ha).trans hv)⟩

end HeadWaits

/-- Only the head of a linkage block pushes a linkage frame. -/
theorem eq_linkage_of_act {rest : List Char} {k : Construct} (h : s.act line rest k = (es, .ok t))
    (ht : t.scopes = .linkage false :: s.scopes) : k = .linkage true := by
  have hlength : t.scopes.length ≠ s.scopes.length := by simp [ht]
  rcases act_cases h with ⟨-, hr⟩ | ⟨-, _, u, hc, -, rfl⟩ | ⟨hne, hnc, -, rfl⟩
  · refine absurd (congrArg List.length ?_) hlength
    rw [← show (s.readEnum line).2 = t from congrArg (·.2) hr]
    unfold readEnum
    simp only
    split <;> rfl
  · have hle : u.scopes.length ≤ s.scopes.length := by
      unfold closeBrace at hc
      simp only at hc
      split at hc
      · cases hc
      · next hd =>
        cases hc
        exact ((List.suffix_cons ..).trans (hd ▸ List.dropWhile_suffix _)).length_le
    have hu : u.scopes = .linkage false :: s.scopes := ht
    rw [hu, List.length_cons] at hle
    omega
  · have ht : (s.perform k).2.scopes = .linkage false :: s.scopes := ht
    cases k with
    | linkage block => cases block <;> simp_all [perform]
    | access level =>
      refine absurd (congrArg List.length ht) ?_
      simp only [perform]
      unfold ScopeStack.setAccess
      split <;> simp_all
    | function _ terminated | constructor _ terminated | destructor _ terminated =>
      cases terminated <;> simp [perform, report, countConstruct] at ht
    | openBrace =>
      simp only [perform, openBrace] at ht
      split at ht
      · simp [push] at ht
      · split at ht
        · simp [push] at ht
        · simp_all
    | enumHead => exact absurd rfl hne
    | closeBrace => exact absurd rfl hnc
    | _ => simp [perform, report, countConstruct] at ht

theorem bodyFollows_of_linkage (hs : s.step line later = (es, .ok t))
    (ht : t.scopes = .linkage false :: s.scopes) : BodyFollows t.scopes t.pending := by
  rcases step_cases hs with ⟨-, hsame, -⟩ | ⟨rule, k, rest, hm, hleft, v, fs, hv, ha⟩
  · exact absurd (ht.symm.trans hsame) (by simp)
  · obtain rfl := eq_linkage_of_act ha (hv ▸ ht)
    obtain ⟨cs, rfl⟩ := Rule.exists_brace_of_linkage (Rule.recognize?_of_match? hm).2
    rw [hleft]
    exact bodyFollows_of_brace ..

end State

/-! ## Heads -/

open State

/-- A head that is pushed by a step from `s`, and the way from the state `t` behind it to the brace
that opens it; what is matched on the way is `ks`. -/
structure PushedHead (s : State) (f : Frame) (t : State) (ks : List Construct) : Prop where
  push : s.next? = some t
  pushed : t.scopes = f :: s.scopes
  waits : ∃ u, HeadWaits t ks u

/-- A head whose body follows is opened by its own brace: no statement that a semicolon ends is
taken in between, and nothing at all but lines that begin with `#`. When only such lines are taken,
its body does follow; for a function so it does already when no statement is taken. The body of a
linkage block always follows. -/
theorem own_brace_of_bodyFollows {s t : State} {f : Frame} {ks : List Construct}
    (h : PushedHead s f t ks) :
    (BodyFollows t.scopes t.pending → ∀ k ∈ ks, k.endsStatement = false) ∧
      (BodyFollows t.scopes t.pending ↔ ∀ k ∈ ks, k.isHashLine = true) ∧
      (∀ name, f = .functionBody name false → (∀ k ∈ ks, k.endsStatement = false) →
        BodyFollows t.scopes t.pending) ∧
      (f = .linkage false → BodyFollows t.scopes t.pending) := by
  obtain ⟨u, hw⟩ := h.waits
  obtain ⟨line, later, es, -, hs⟩ := exists_step_of_next? h.push
  refine ⟨fun hb k hk => Construct.endsStatement_of_isHashLine (hw.forall_isHashLine hb k hk),
    ⟨hw.forall_isHashLine, hw.waits.bodyFollows hw.opens⟩, fun name hf hk => ?_,
    fun hf => bodyFollows_of_linkage hs (hf ▸ h.pushed)⟩
  have hc : t.scopes.context = .functionBody := by rw [h.pushed, hf]; rfl
  refine hw.waits.bodyFollows hw.opens fun k hmem => ?_
  rcases hw.isHashLine_or_statement hc k hmem with hhash | rfl
  · exact hhash
  · exact absurd (hk _ hmem) (by decide)

/-- A class whose brace comes three lines below its head. -/
def lateBody : String :=
  "class A\n#line 3\n: B\n\x7b\n\x7d;\n"

/-- A forward declaration of a class, and an array. The brace of the array opens the class. -/
def lostHead : String :=
  "template <> class A<int>;\nint t[] = \x7b 1, 2 \x7d;\n"

/-- The class `A` of the two headers, with its head read. -/
def headOfA (template : Option TemplateParams) : Frame :=
  .classBody (.ofHead "A" .isClass template)

theorem own_brace_of_lateBody_lostHead :
    (∃ t, PushedHead (startOf lateBody) (headOfA none) t [.directive] ∧
      BodyFollows t.scopes t.pending) ∧
    ∃ t, PushedHead (startOf lostHead) (headOfA (some ⟨[]⟩)) t [.statement] ∧
      ¬ BodyFollows t.scopes t.pending := by
  constructor
  · -- The directive is taken, and the base class is joined with the brace.
    let t : State := ⟨[⟨2, "#line 3".toList⟩, ⟨3, ": B".toList⟩, ⟨4, "\x7b".toList⟩,
      ⟨5, "\x7d;".toList⟩], [headOfA none], some ⟨1, "class A".toList⟩, ⟨1, 1, 0, 0⟩⟩
    let v : State := ⟨[⟨3, ": B".toList⟩, ⟨4, "\x7b".toList⟩, ⟨5, "\x7d;".toList⟩],
      [headOfA none], some ⟨2, "#line 3".toList⟩, ⟨2, 1, 0, 0⟩⟩
    let u : State := ⟨[⟨3, ": B \x7b".toList⟩, ⟨5, "\x7d;".toList⟩],
      [headOfA none], some ⟨3, ": B".toList⟩, ⟨3, 1, 1, 0⟩⟩
    let w : State := ⟨[⟨5, "\x7d;".toList⟩],
      [(headOfA none).opening], some ⟨3, ": B".toList⟩, ⟨4, 1, 1, 0⟩⟩
    have hw : Waits 1 t [.directive] u :=
      .next (t := v) (m := some .directive) (by decide) rfl (by decide +kernel) (by decide +kernel)
        (.next (t := u) (m := none) (by decide) rfl (by decide +kernel) (by decide +kernel)
          (.refl (by decide)))
    have ho : u.Opens := ⟨w, _, _, by decide +kernel, rfl, rfl, rfl⟩
    have h : PushedHead (startOf lateBody) (headOfA none) t [.directive] :=
      ⟨by decide +kernel, rfl, u, fun f hf => by cases hf; rfl, hw, rfl, ho⟩
    exact ⟨t, h, (own_brace_of_bodyFollows h).2.1.mpr (by decide)⟩
  · let t : State := ⟨[⟨1, "<int>;".toList⟩, ⟨2, "int t[] = \x7b 1, 2 \x7d;".toList⟩],
      [headOfA (some ⟨[]⟩)], some ⟨1, "template <> class A<int>;".toList⟩, ⟨1, 1, 0, 0⟩⟩
    let u : State := ⟨[⟨2, "int t[] = \x7b 1, 2 \x7d;".toList⟩],
      [headOfA (some ⟨[]⟩)], some ⟨1, "template <> class A<int>;".toList⟩, ⟨2, 1, 0, 0⟩⟩
    let w : State := ⟨[⟨2, "1, 2 \x7d;".toList⟩], [(headOfA (some ⟨[]⟩)).opening],
      some ⟨2, "int t[] = \x7b 1, 2 \x7d;".toList⟩, ⟨3, 1, 0, 0⟩⟩
    have hw : Waits 1 t [.statement] u :=
      .next (t := u) (m := some .statement) (by decide) rfl (by decide +kernel) (by decide +kernel)
        (.refl (by decide))
    have ho : u.Opens := ⟨w, _, _, by decide +kernel, rfl, rfl, rfl⟩
    have h : PushedHead (startOf lostHead) (headOfA (some ⟨[]⟩)) t [.statement] :=
      ⟨by decide +kernel, rfl, u, fun f hf => by cases hf; rfl, hw, rfl, ho⟩
    refine ⟨t, h, fun hb => ?_⟩
    exact absurd ((own_brace_of_bodyFollows h).1 hb .statement (by decide)) (by decide)

end HeaderOutline
