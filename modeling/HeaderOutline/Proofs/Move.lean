import HeaderOutline.Proofs.Course
import Mathlib.Data.List.TakeWhile
/-!
# Moves of the scopes

One dispatched fragment does little to the scopes: it leaves them, pushes a head, sets the access of
the class on top, opens the head on top, skips a brace, or closes a scope. `Move` lists these cases
with what each reports and with the contexts it is confined to.

Results:
* `Rule.makes_of_recognize?`: what a rule recognizes is of its sort.
* `move_step`: a step that succeeds is a move.
* `step_error`: a step that fails reports no construct and finds no opened frame.
* `moves_of_reads`: a course is a sequence of moves.
-/
namespace HeaderOutline

/-- Declarations are read here: outside bodies and skipped braces. -/
def Context.declares : Context → Bool
  | .nameSpace | .classBody => true
  | .functionBody | .skip => false

def Event.isPlain : Event → Bool
  | .enum _ | .functionDecl _ | .constructorDecl .. | .destructorDecl _ => true
  | _ => false

def Event.bodyName? : Event → Option String
  | .functionDef f => some f.name
  | .constructorDef name _ => some name
  | .destructorDef name => some name
  | _ => none

/-- What a fragment does to the scopes, and the calls it makes. -/
inductive Move : ScopeStack → List Call → ScopeStack → Prop
  | stay (fs : ScopeStack) : Move fs [] fs
  | define (fs : ScopeStack) (item : MacroDef) : Move fs [(.define item, fs)] fs
  | plain {fs : ScopeStack} {e : Event} : fs.context.declares = true → e.isPlain = true →
      Move fs [(e, fs)] fs
  | access {fs : ScopeStack} (level : AccessLevel) : fs.context = .classBody →
      Move fs [] (fs.setAccess level)
  | linkage {fs : ScopeStack} : fs.context = .nameSpace → Move fs [] (.linkage false :: fs)
  | nameSpace {fs : ScopeStack} (name : String) : fs.context = .nameSpace →
      Move fs [(.nameSpace name, fs)] (.nameSpace name false :: fs)
  | classHead {fs : ScopeStack} (head : Declaration.ClassHead) : fs.context.declares = true →
      Move fs [(.classHead head, fs)]
        (.classBody (.ofHead head.name head.key head.template) :: fs)
  | body {fs : ScopeStack} {e : Event} {name : String} : fs.context.declares = true →
      e.bodyName? = some name → Move fs [(e, fs)] (.functionBody name false :: fs)
  | opens {f : Frame} {fs : ScopeStack} : f.isOpened = false →
      Move (f :: fs) ((State.startEvent? f).toList.map (·, f.opening :: fs)) (f.opening :: fs)
  | skips {fs : ScopeStack} : (∀ f ∈ fs.head?, f.isOpened = true) → Move fs [] (.skip :: fs)
  | closes {hs : ScopeStack} {f : Frame} {fs : ScopeStack} : (∀ h ∈ hs, h.isOpened = false) →
      f.isOpened = true → Move (hs ++ f :: fs) ((State.endEvent? f).toList.map (·, f :: fs)) fs

inductive Moves : ScopeStack → List Call → ScopeStack → Prop
  | refl (fs : ScopeStack) : Moves fs [] fs
  | next {fs gs hs : ScopeStack} {cs ds : List Call} : Move fs cs gs → Moves gs ds hs →
      Moves fs (cs ++ ds) hs

/-! ## Where a construct may stand -/

def Construct.standsIn (context : Context) : Construct → Bool
  | .define .. | .directive | .openBrace | .closeBrace | .statement => true
  | .access _ | .constructor .. | .destructor .. => context == .classBody
  | .linkage _ | .nameSpace _ => context == .nameSpace
  | .classHead _ | .enumHead | .function .. => context.declares

namespace Rule

theorem exists_of_readText {α : Type} {read : Declaration.Reader α} {make : α → Construct}
    {cs rest : List Char} {k : Construct} (h : readText read make cs = some (k, rest)) :
    ∃ a, k = make a := by
  obtain ⟨⟨a, ts⟩, -, heq⟩ := Option.map_eq_some_iff.mp h
  exact ⟨a, (Prod.mk.inj heq).1.symm⟩

theorem exists_of_define? {cs rest : List Char} {k : Construct} (h : define? cs = some (k, rest)) :
    ∃ name value, k = .define name value := by
  simp only [define?, Option.bind_eq_bind, Option.bind_eq_some_iff] at h
  obtain ⟨c1, -, c2, -, h⟩ := h
  split at h
  · cases h
  · split at h
    · cases h
    · cases h; exact ⟨_, _, rfl⟩

theorem exists_of_access? {cs rest : List Char} {k : Construct} (h : access? cs = some (k, rest)) :
    ∃ level, k = .access level := by
  simp only [access?, Option.bind_eq_bind, Option.bind_eq_some_iff] at h
  obtain ⟨⟨level, c1⟩, -, c2, -, h⟩ := h
  split at h
  · cases h
  · cases h; exact ⟨_, rfl⟩

theorem exists_of_linkage? {cs rest : List Char} {k : Construct}
    (h : linkage? cs = some (k, rest)) : ∃ block, k = .linkage block := by
  simp only [linkage?, Option.bind_eq_bind, Option.bind_eq_some_iff, Option.some.injEq,
    Prod.mk.injEq] at h
  obtain ⟨c1, -, c2, -, c3, -, rfl, -⟩ := h
  exact ⟨_, rfl⟩

theorem exists_of_nameSpace? {cs rest : List Char} {k : Construct}
    (h : nameSpace? cs = some (k, rest)) : ∃ name, k = .nameSpace name := by
  simp only [nameSpace?, Option.bind_eq_bind, Option.bind_eq_some_iff] at h
  obtain ⟨c1, -, h⟩ := h
  split at h
  · cases h
  · cases h; exact ⟨_, rfl⟩

/-- The construct is of the sort that the rule recognizes. -/
inductive Makes : Rule → Construct → Prop
  | define (name : String) (value : List Char) : Makes define (.define name value)
  | directive : Makes directive .directive
  | access (level : AccessLevel) : Makes access (.access level)
  | linkage (block : Bool) : Makes linkage (.linkage block)
  | nameSpace (name : String) : Makes nameSpace (.nameSpace name)
  | classHead (head : Declaration.ClassHead) : Makes classHead (.classHead head)
  | enumHead : Makes enumHead .enumHead
  | callOperator (s : Signature) (terminated : Bool) : Makes callOperator (.function s terminated)
  | operator (s : Signature) (terminated : Bool) : Makes operator (.function s terminated)
  | function (s : Signature) (terminated : Bool) : Makes function (.function s terminated)
  | destructor (name : String) (terminated : Bool) :
      Makes destructor (.destructor name terminated)
  | constructor (item : Declaration.Constructor) (terminated : Bool) :
      Makes constructor (.constructor item terminated)
  | openBrace : Makes openBrace .openBrace
  | closeBrace : Makes closeBrace .closeBrace
  | statement : Makes statement .statement

theorem makes_of_recognize? {className : Option String} {cs rest : List Char} {k : Construct}
    {rule : Rule} (h : recognize? className cs rule = some (k, rest)) : Makes rule k := by
  cases rule <;> simp only [recognize?] at h
  case define => obtain ⟨name, value, rfl⟩ := exists_of_define? h; exact .define name value
  case directive => obtain ⟨_, -, heq⟩ := Option.map_eq_some_iff.mp h; cases heq; exact .directive
  case access => obtain ⟨level, rfl⟩ := exists_of_access? h; exact .access level
  case linkage => obtain ⟨block, rfl⟩ := exists_of_linkage? h; exact .linkage block
  case nameSpace => obtain ⟨name, rfl⟩ := exists_of_nameSpace? h; exact .nameSpace name
  case enumHead => split at h <;> cases h; exact .enumHead
  case constructor =>
    obtain ⟨name, -, h⟩ := Option.bind_eq_some_iff.mp h
    obtain ⟨d, rfl⟩ := exists_of_readText h
    exact .constructor d.item d.terminated
  all_goals
    obtain ⟨d, rfl⟩ := exists_of_readText h
    constructor

/-- A rule recognizes only constructs that may stand where the rule applies. -/
theorem standsIn_of_recognize? {context : Context} {className : Option String}
    {cs rest : List Char} {k : Construct} {rule : Rule} (ha : appliesIn context rule = true)
    (h : recognize? className cs rule = some (k, rest)) : k.standsIn context = true := by
  have hd : (context == .nameSpace || context == .classBody) = context.declares := by
    cases context <;> rfl
  cases makes_of_recognize? h <;> simp only [appliesIn, hd] at ha <;> first | exact ha | rfl

/-- A match is a recognition by its rule, which applies in the context. -/
theorem recognize?_of_match? {context : Context} {className : Option String}
    {cs rest : List Char} {k : Construct} {rule : Rule}
    (h : match? context className cs = some (rule, k, rest)) :
    rule.appliesIn context = true ∧ recognize? className cs rule = some (k, rest) := by
  obtain ⟨_, r, _, hl, h, _⟩ := List.findSome?_eq_some_iff.mp h
  obtain ⟨⟨k', rest'⟩, h', heq⟩ := Option.map_eq_some_iff.mp h
  cases heq
  have hr : rule ∈ all.filter (appliesIn context) := by rw [hl]; simp
  exact ⟨(List.mem_filter.mp hr).2, h'⟩

theorem standsIn_of_match? {context : Context} {className : Option String} {cs rest : List Char}
    {k : Construct} {rule : Rule} (h : match? context className cs = some (rule, k, rest)) :
    k.standsIn context = true :=
  standsIn_of_recognize? (recognize?_of_match? h).1 (recognize?_of_match? h).2

end Rule

/-! ## One step -/

namespace State

theorem calls_enter (line : SourceLine) (s : State) : calls (s.enter line).1 = [] := by
  unfold enter
  split
  · rfl
  · rw [calls_append]
    split <;> simp [Event.isStructural]

theorem scopes_enter (line : SourceLine) (s : State) : (s.enter line).2.scopes = s.scopes := by
  unfold enter
  split <;> rfl

theorem calls_putBack (number : Nat) (rest : List Char) (s : State) :
    calls (s.putBack number rest).1 = [] := by
  unfold putBack
  simp only
  split <;> rfl

/-- What the report of a construct does: one call, and the body that it announces. -/
theorem move_report {s : State} {e : Event} {body : Option Frame} (he : e.isStructural = true)
    (h : Move s.scopes [(e, s.scopes)] (body.toList ++ s.scopes)) :
    Move s.scopes (calls (s.report e body).1) (s.report e body).2.scopes := by
  simpa [report, he, countConstruct] using h

theorem move_openBrace (s : State) :
    Move s.scopes (calls s.openBrace.1) s.openBrace.2.scopes := by
  unfold openBrace
  split
  · next h => simp only [push, h]; exact .skips (by simp)
  · next f fs h =>
    split
    · next ho =>
      simp only [push, h]
      exact .skips (by simpa using ho)
    · next ho =>
      rw [h]
      have hm : Move (f :: fs) _ (f.opening :: fs) := .opens (Bool.eq_false_iff.mpr ho)
      cases f <;> simpa [startEvent?, Event.isStructural] using hm

theorem move_perform {s : State} {k : Construct} (hk : k.standsIn s.scopes.context = true) :
    Move s.scopes (calls (s.perform k).1) (s.perform k).2.scopes := by
  cases k with
  | define name value => exact .define ..
  | access level => exact .access level (by simpa [Construct.standsIn] using hk)
  | linkage block =>
    cases block
    · exact .stay _
    · exact .linkage (by simpa [Construct.standsIn] using hk)
  | nameSpace name =>
    exact move_report rfl (.nameSpace name (by simpa [Construct.standsIn] using hk))
  | classHead head => exact move_report rfl (.classHead head hk)
  | function f terminated =>
    cases terminated
    · exact move_report rfl (.body hk rfl)
    · exact move_report rfl (.plain hk rfl)
  | constructor c terminated =>
    have hd : s.scopes.context.declares = true := by
      simp only [Construct.standsIn, beq_iff_eq] at hk; rw [hk]; rfl
    cases terminated
    · exact move_report rfl (.body hd rfl)
    · exact move_report rfl (.plain hd rfl)
  | destructor name terminated =>
    have hd : s.scopes.context.declares = true := by
      simp only [Construct.standsIn, beq_iff_eq] at hk; rw [hk]; rfl
    cases terminated
    · exact move_report rfl (.body hd rfl)
    · exact move_report rfl (.plain hd rfl)
  | openBrace => exact move_openBrace s
  | directive | statement | enumHead | closeBrace => exact .stay _

theorem calls_dropped (number : Nat) (fs : ScopeStack) :
    calls (fs.map fun f => Entry.note (.dropped number f.kind)) = [] := by
  refine calls_eq_nil fun e he => ?_
  obtain ⟨f, -, rfl⟩ := List.mem_map.mp he
  rfl

theorem move_closeBrace {number : Nat} {s t : State} {es : List Entry}
    (h : s.closeBrace number = (es, .ok t)) : Move s.scopes (calls es) t.scopes := by
  unfold closeBrace at h
  simp only at h
  have hsplit := List.takeWhile_append_dropWhile (p := fun f : Frame => !f.isOpened) (l := s.scopes)
  split at h
  · cases h
  · next f fs hd =>
    simp only [Prod.mk.injEq, Except.ok.injEq] at h
    obtain ⟨rfl, rfl⟩ := h
    rw [hd] at hsplit
    have hf : f.isOpened = true := by
      have := List.head?_dropWhile_not (fun f : Frame => !f.isOpened) s.scopes
      simpa [hd] using this
    have hm : Move (s.scopes.takeWhile (!·.isOpened) ++ f :: fs) _ fs :=
      .closes (fun g hg => by simpa using List.mem_takeWhile_imp hg) hf
    rw [hsplit] at hm
    rw [calls_append, calls_dropped]
    cases f <;> simpa [endEvent?, Event.isStructural, hd] using hm

theorem closeBrace_error {number : Nat} {s : State} {es : List Entry} {e : UnbalancedBrace}
    (h : s.closeBrace number = (es, .error e)) :
    calls es = [] ∧ e = ⟨number⟩ ∧ ∀ f ∈ s.scopes, f.isOpened = false := by
  unfold closeBrace at h
  simp only at h
  split at h
  · next hd =>
    simp only [Prod.mk.injEq, Except.error.injEq] at h
    obtain ⟨rfl, rfl⟩ := h
    exact ⟨calls_dropped .., rfl, fun f hf => by simpa using List.dropWhile_eq_nil_iff.mp hd f hf⟩
  · cases h

theorem move_readEnum {line : SourceLine} {s : State} (h : s.scopes.context.declares = true) :
    Move s.scopes (calls (s.readEnum line).1) (s.readEnum line).2.scopes := by
  unfold readEnum
  simp only
  split
  · exact move_report rfl (.plain h rfl)
  · exact .stay _
  · exact .stay _

theorem move_unmatched (line : SourceLine) (s : State) :
    Move s.scopes (calls (s.unmatched line).1) (s.unmatched line).2.scopes := by
  unfold unmatched
  split <;> exact .stay _

theorem move_act {line : SourceLine} {rest : List Char} {k : Construct} {s t : State}
    {es : List Entry} (hk : k.standsIn s.scopes.context = true)
    (h : s.act line rest k = (es, .ok t)) : Move s.scopes (calls es) t.scopes := by
  unfold act at h
  split at h
  · simp only [Prod.mk.injEq, Except.ok.injEq] at h
    obtain ⟨rfl, rfl⟩ := h
    exact move_readEnum hk
  · split at h
    · cases h
    · next es' u hc =>
      simp only [Prod.mk.injEq, Except.ok.injEq] at h
      obtain ⟨rfl, rfl⟩ := h
      rw [calls_append, calls_putBack, List.append_nil]
      exact (move_closeBrace hc :)
  · simp only [Prod.mk.injEq, Except.ok.injEq] at h
    obtain ⟨rfl, rfl⟩ := h
    rw [calls_append, calls_putBack, List.append_nil]
    exact move_perform hk

theorem act_error {line : SourceLine} {rest : List Char} {k : Construct} {s : State}
    {es : List Entry} {e : UnbalancedBrace} (h : s.act line rest k = (es, .error e)) :
    calls es = [] ∧ e = ⟨line.number⟩ ∧ ∀ f ∈ s.scopes, f.isOpened = false := by
  unfold act at h
  split at h
  · cases h
  · split at h
    · next hc => cases h; exact closeBrace_error hc
    · cases h
  · cases h

/-- Acting upon a match that succeeds reads an enum, closes a brace, or performs the construct; in
the latter two the rest of the line is put back. -/
theorem act_cases {line : SourceLine} {rest : List Char} {k : Construct} {s t : State}
    {es : List Entry} (h : s.act line rest k = (es, .ok t)) :
    (k = .enumHead ∧ s.readEnum line = (es, t)) ∨
      (k = .closeBrace ∧ ∃ fs u, s.closeBrace line.number = (fs, .ok u) ∧
        es = fs ++ (u.putBack line.number rest).1 ∧ t = (u.putBack line.number rest).2) ∨
      (k ≠ .enumHead ∧ k ≠ .closeBrace ∧
        es = (s.perform k).1 ++ ((s.perform k).2.putBack line.number rest).1 ∧
        t = ((s.perform k).2.putBack line.number rest).2) := by
  unfold act at h
  split at h
  · simp only [Prod.mk.injEq, Except.ok.injEq] at h
    obtain ⟨rfl, rfl⟩ := h
    exact .inl ⟨rfl, rfl⟩
  · split at h
    · cases h
    · next hc =>
      simp only [Prod.mk.injEq, Except.ok.injEq] at h
      exact .inr (.inl ⟨rfl, _, _, hc, h.1.symm, h.2.symm⟩)
  · next h1 h2 =>
    simp only [Prod.mk.injEq, Except.ok.injEq] at h
    exact .inr (.inr ⟨h1, h2, h.1.symm, h.2.symm⟩)

/-- The match that a dispatch of the line rests on. -/
def found? (line : SourceLine) (s : State) : Option (Rule × Construct × List Char) :=
  Rule.match? s.scopes.context (s.scopes.topClass?.map (·.name)) line.text

/-- A dispatch that succeeds joins or gives up its fragment, or acts upon a match. -/
theorem dispatch_cases {line : SourceLine} {s t : State} {es : List Entry}
    (h : s.dispatch line = (es, .ok t)) :
    (s.found? line = none ∧ s.countDispatched.unmatched line = (es, t)) ∨
      ∃ rule k rest fs, s.found? line = some (rule, k, rest) ∧
        es = .note (.matched line.number rule) :: fs ∧
        s.countDispatched.act line rest k = (fs, .ok t) := by
  unfold dispatch at h
  simp only at h
  split at h
  · next hm =>
    simp only [Prod.mk.injEq, Except.ok.injEq] at h
    obtain ⟨rfl, rfl⟩ := h
    exact .inl ⟨hm, rfl⟩
  · next rule k rest hm =>
    simp only [Prod.mk.injEq] at h
    obtain ⟨rfl, ht⟩ := h
    exact .inr ⟨rule, k, rest, _, hm, rfl, Prod.ext rfl ht⟩

theorem dispatch_error_cases {line : SourceLine} {s : State} {es : List Entry} {e : UnbalancedBrace}
    (h : s.dispatch line = (es, .error e)) :
    ∃ rule k rest fs, s.found? line = some (rule, k, rest) ∧
      es = .note (.matched line.number rule) :: fs ∧
      s.countDispatched.act line rest k = (fs, .error e) := by
  unfold dispatch at h
  simp only at h
  split at h
  · cases h
  · next rule k rest hm =>
    simp only [Prod.mk.injEq] at h
    obtain ⟨rfl, ht⟩ := h
    exact ⟨rule, k, rest, _, hm, rfl, Prod.ext rfl ht⟩

theorem move_dispatch {line : SourceLine} {s t : State} {es : List Entry}
    (h : s.dispatch line = (es, .ok t)) : Move s.scopes (calls es) t.scopes := by
  rcases dispatch_cases h with ⟨-, hu⟩ | ⟨rule, k, rest, fs, hm, rfl, ha⟩
  · have hv := move_unmatched line s.countDispatched
    rwa [hu] at hv
  · rw [calls_note]
    exact move_act (s := s.countDispatched) (Rule.standsIn_of_match? hm) ha

theorem dispatch_error {line : SourceLine} {s : State} {es : List Entry} {e : UnbalancedBrace}
    (h : s.dispatch line = (es, .error e)) :
    calls es = [] ∧ e = ⟨line.number⟩ ∧ ∀ f ∈ s.scopes, f.isOpened = false := by
  obtain ⟨rule, k, rest, fs, -, rfl, ha⟩ := dispatch_error_cases h
  rw [calls_note]
  exact act_error (s := s.countDispatched) ha

/-- A step that succeeds is a move. -/
theorem move_step {line : SourceLine} {later : List SourceLine} {s t : State} {es : List Entry}
    (h : s.step line later = (es, .ok t)) : Move s.scopes (calls es) t.scopes := by
  simp only [step, Prod.mk.injEq] at h
  obtain ⟨rfl, ht⟩ := h
  have hm := move_dispatch (Prod.ext rfl ht)
  rw [scopes_enter] at hm
  rwa [calls_append, calls_enter]

/-- A step fails at a closing brace without an opened frame, and then it reports no construct. -/
theorem step_error {line : SourceLine} {later : List SourceLine} {s : State} {es : List Entry}
    {e : UnbalancedBrace} (h : s.step line later = (es, .error e)) :
    calls es = [] ∧ e = ⟨line.number⟩ ∧ ∀ f ∈ s.scopes, f.isOpened = false := by
  simp only [step, Prod.mk.injEq] at h
  obtain ⟨rfl, ht⟩ := h
  have hd := dispatch_error (Prod.ext rfl ht)
  rw [scopes_enter] at hd
  rwa [calls_append, calls_enter]

/-! ## Courses and whole readings -/

theorem moves_of_reads {s t : State} {es : List Entry} (h : Reads s es t) :
    Moves s.scopes (calls es) t.scopes := by
  induction h with
  | refl => exact .refl _
  | next _ hs _ ih => rw [calls_append]; exact .next (move_step hs) ih

end State

/-- What a whole reading reports is a sequence of moves from the empty stack; when the reading
succeeds, the last stack is the one whose frames are still open. -/
theorem parse_moves (source : String) :
    ∃ fs, Moves [] (parse source).calls fs ∧ ∀ f, (parse source).result = .ok f →
      f.summary.unclosedScopes = fs.length := by
  obtain ⟨es, t, hr, ⟨-, hc, f, hf, hu, -⟩ | ⟨_, _, fs, e, -, hs, hc, he⟩⟩ := parse_cases source
  · refine ⟨t.scopes, hc ▸ State.moves_of_reads hr, fun g hg => ?_⟩
    rw [hf] at hg
    cases hg
    exact hu
  · have hn := (State.step_error hs).1
    refine ⟨t.scopes, ?_, fun g hg => ?_⟩
    · rw [hc, hn, List.append_nil]; exact State.moves_of_reads hr
    · rw [he] at hg; cases hg

end HeaderOutline
