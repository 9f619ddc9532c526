import HeaderOutline.Proofs.LineTexts
import HeaderOutline.Proofs.Move
/-!
# Readings that stand before a text

`s.Stands fs cs`: in the scopes `fs`, the reading has the lines of the text `cs` before it and has
given nothing up. `Leads fs cs ks gs ds`: from there, however the lines are numbered, it comes to
the scopes `gs` and the text `ds` and reports `ks` on the way.

Results:
* `State.step_of_match`, `State.step_of_unmatched`: one step, by what is matched.
* `leads_of_act`, `leads_of_match`: one matched fragment.
* `leads_of_join`: a fragment that no rule matches and that goes on in the next line.
* `parse_of_leads`: a whole header.
-/
namespace HeaderOutline
open Text

/-- The reading has the text before it, in the scopes, and has given nothing up. -/
structure State.Stands (s : State) (fs : ScopeStack) (cs : List Char) : Prop where
  scopes : s.scopes = fs
  texts : s.pending.map (·.text) = textLines cs
  kept : s.tally.discarded = 0

/-- Before the text `cs`, a reading comes to the text `ds` and makes the calls `ks`. -/
def Leads (fs : ScopeStack) (cs : List Char) (ks : List Call) (gs : ScopeStack) (ds : List Char) :
    Prop :=
  ∀ s : State, s.Stands fs cs → ∃ es t, State.Reads s es t ∧ calls es = ks ∧ t.Stands gs ds

namespace Leads

variable {fs gs hs : ScopeStack} {cs ds xs : List Char} {ks ls : List Call}

theorem refl (fs : ScopeStack) (cs : List Char) : Leads fs cs [] fs cs := fun s hs =>
  ⟨[], s, .refl s, rfl, hs⟩

theorem trans (h : Leads fs cs ks gs ds) (h' : Leads gs ds ls hs xs) :
    Leads fs cs (ks ++ ls) hs xs := fun s hs => by
  obtain ⟨es, t, hr, hc, ht⟩ := h s hs
  obtain ⟨es', u, hr', hc', hu⟩ := h' t ht
  exact ⟨es ++ es', u, hr.trans hr', by rw [calls_append, hc, hc'], hu⟩

theorem of_texts (he : textLines cs = textLines xs) (h : Leads fs xs ks gs ds) :
    Leads fs cs ks gs ds := fun s hs => h s ⟨hs.scopes, hs.texts.trans he, hs.kept⟩

theorem blank {c : Char} (hc : isBlank c = true) (h : Leads fs cs ks gs ds) :
    Leads fs (c :: cs) ks gs ds :=
  of_texts (textLines_blank hc cs) h

end Leads

/-! ## Matches -/

/-- What acting upon the construct does in the scopes `fs`: it makes the calls, leaves the scopes
`gs`, and puts the rest of the line back. -/
def Construct.Does (k : Construct) (fs : ScopeStack) (ks : List Call) (gs : ScopeStack) : Prop :=
  ∀ (s : State) (line : SourceLine) (rest : List Char), s.scopes = fs →
    ∃ es t, s.act line rest k = (es, .ok t) ∧ calls es = ks ∧ t.scopes = gs ∧
      t.pending = requeue line.number rest s.pending ∧ t.tally.discarded = s.tally.discarded

theorem State.enter_fields (line : SourceLine) (s : State) :
    (s.enter line).2.scopes = s.scopes ∧ (s.enter line).2.pending = s.pending ∧
      (s.enter line).2.tally = s.tally := by
  unfold enter
  split <;> exact ⟨rfl, rfl, rfl⟩

theorem State.dispatch_of_found? {line : SourceLine} {s : State} {rule : Rule} {k : Construct}
    {rest : List Char} (h : s.found? line = some (rule, k, rest)) :
    s.dispatch line = (.note (.matched line.number rule) :: (s.countDispatched.act line rest k).1,
      (s.countDispatched.act line rest k).2) := by
  have hm : Rule.match? s.countDispatched.scopes.context
      (s.countDispatched.scopes.topClass?.map (·.name)) line.text = some (rule, k, rest) := h
  unfold dispatch
  simp only [hm]

theorem State.dispatch_of_not_found? {line : SourceLine} {s : State} (h : s.found? line = none) :
    s.dispatch line =
      ((s.countDispatched.unmatched line).1, .ok (s.countDispatched.unmatched line).2) := by
  have hm : Rule.match? s.countDispatched.scopes.context
      (s.countDispatched.scopes.topClass?.map (·.name)) line.text = none := h
  unfold dispatch
  simp only [hm]

/-- A step that finds a match acts upon it, in a state with the same scopes that has the later lines
before it. -/
theorem State.step_of_match {s : State} {line : SourceLine} {rule : Rule} {k : Construct}
    {rest : List Char} (later : List SourceLine)
    (hm : Rule.match? s.scopes.context (s.scopes.topClass?.map (·.name)) line.text =
      some (rule, k, rest)) :
    ∃ u : State, u.scopes = s.scopes ∧ u.pending = later ∧
      u.tally.discarded = s.tally.discarded ∧
      ∀ {es : List Entry} {t : State}, u.act line rest k = (es, .ok t) →
        ∃ es', s.step line later = (es', .ok t) ∧ calls es' = calls es := by
  obtain ⟨h1, h2, h3⟩ := State.enter_fields line { s with pending := later }
  generalize hu : ({ s with pending := later }.enter line).2 = u at h1 h2 h3
  refine ⟨u.countDispatched, h1, h2, congrArg (·.discarded) h3, fun {es t} ha => ?_⟩
  have hd : u.dispatch line = (.note (.matched line.number rule) :: es, .ok t) := by
    rw [State.dispatch_of_found? (by rw [State.found?, h1]; exact hm), ha]
  refine ⟨_, by rw [State.step, hu, hd], ?_⟩
  rw [calls_append, State.calls_enter, calls_note]
  rfl

theorem State.step_of_does {s : State} {line : SourceLine} {rule : Rule} {k : Construct}
    {rest : List Char} {ks : List Call} {gs : ScopeStack} (later : List SourceLine)
    (hm : Rule.match? s.scopes.context (s.scopes.topClass?.map (·.name)) line.text =
      some (rule, k, rest)) (hk : k.Does s.scopes ks gs) :
    ∃ es t, s.step line later = (es, .ok t) ∧ calls es = ks ∧ t.scopes = gs ∧
      t.pending = requeue line.number rest later ∧ t.tally.discarded = s.tally.discarded := by
  obtain ⟨u, h1, h2, h3, hstep⟩ := State.step_of_match later hm
  obtain ⟨es, t, ha, hc, ht1, ht2, ht3⟩ := hk u line rest h1
  obtain ⟨es', hs, hc'⟩ := hstep ha
  exact ⟨es', t, hs, hc'.trans hc, ht1, by rw [ht2, h2], ht3.trans h3⟩

/-- A step without a match joins the next line. -/
theorem State.step_of_unmatched {s : State} {line next : SourceLine} (later : List SourceLine)
    (hm : Rule.match? s.scopes.context (s.scopes.topClass?.map (·.name)) line.text = none) :
    ∃ es t, s.step line (next :: later) = (es, .ok t) ∧ calls es = [] ∧ t.scopes = s.scopes ∧
      t.pending = ⟨line.number, line.text ++ ' ' :: next.text⟩ :: later ∧
      t.tally.discarded = s.tally.discarded := by
  obtain ⟨h1, h2, h3⟩ := State.enter_fields line { s with pending := next :: later }
  generalize hu : ({ s with pending := next :: later }.enter line).2 = u at h1 h2 h3
  let joined : State := { u.countDispatched with
    pending := ⟨line.number, line.text ++ ' ' :: next.text⟩ :: later }
  have hd : u.dispatch line = ([.note (.merged line.number)], .ok (joined.countMerges 1)) := by
    have hp : u.countDispatched.pending = next :: later := h2
    rw [State.dispatch_of_not_found? (by rw [State.found?, h1]; exact hm), State.unmatched, hp]
  refine ⟨_, joined.countMerges 1, by rw [State.step, hu, hd], ?_, h1, rfl,
    congrArg (·.discarded) h3⟩
  rw [calls_append, State.calls_enter]
  rfl

/-- A fragment that begins with some words and is matched; acting upon it comes to the text `ds`. -/
theorem leads_of_act {fs gs : ScopeStack} {w cs ds rest : List Char} {ks : List Call} {rule : Rule}
    {k : Construct} (hw : Solid w)
    (hm : Rule.match? fs.context (fs.topClass?.map (·.name)) (w ++ lineEnd cs) =
      some (rule, k, rest))
    (ha : ∀ (s : State) (line : SourceLine), s.scopes = fs → line.text = w ++ lineEnd cs →
      s.pending.map (·.text) = textLines (lineRest cs) →
      ∃ es t, s.act line rest k = (es, .ok t) ∧ calls es = ks ∧ t.scopes = gs ∧
        t.pending.map (·.text) = textLines ds ∧ t.tally.discarded = s.tally.discarded) :
    Leads fs (w ++ cs) ks gs ds := by
  intro s hs
  have htexts := hs.texts
  rw [textLines_solid hw] at htexts
  obtain ⟨line, later, hp, hline, hlater⟩ := List.map_eq_cons_iff.mp htexts
  rw [← hs.scopes, ← hline] at hm
  obtain ⟨u, h1, h2, h3, hstep⟩ := State.step_of_match later hm
  obtain ⟨es, t, hact, hc, ht1, ht2, ht3⟩ :=
    ha u line (h1.trans hs.scopes) hline (by rw [h2, hlater])
  obtain ⟨es', hs', hc'⟩ := hstep hact
  exact ⟨es', t, .one hp hs', hc'.trans hc, ht1, ht2, by rw [ht3, h3, hs.kept]⟩

/-- A fragment that is matched up to the end of some words, but for blanks behind them. -/
theorem leads_of_match_blank {fs gs : ScopeStack} {w cs rest : List Char} {ks : List Call}
    {rule : Rule} {k : Construct} (hw : Solid w)
    (hm : Rule.match? fs.context (fs.topClass?.map (·.name)) (w ++ lineEnd cs) =
      some (rule, k, rest)) (hrest : trimStart rest = trimStart (lineEnd cs))
    (hk : k.Does fs ks gs) : Leads fs (w ++ cs) ks gs cs := by
  refine leads_of_act hw hm fun s line hs _ hp => ?_
  obtain ⟨es, t, ha, hc, ht1, ht2, ht3⟩ := hk s line rest hs
  refine ⟨es, t, ha, hc, ht1, ?_, ht3⟩
  rw [ht2, requeue, hrest]
  exact texts_requeue line.number hp

/-- A fragment that is matched up to the end of some words. -/
theorem leads_of_match {fs gs : ScopeStack} {w cs : List Char} {ks : List Call} {rule : Rule}
    {k : Construct} (hw : Solid w)
    (hm : Rule.match? fs.context (fs.topClass?.map (·.name)) (w ++ lineEnd cs) =
      some (rule, k, lineEnd cs)) (hk : k.Does fs ks gs) : Leads fs (w ++ cs) ks gs cs :=
  leads_of_match_blank hw hm rfl hk

/-- Words that no rule matches are joined with the line behind them. -/
theorem leads_of_join {fs : ScopeStack} {w cs : List Char} {c : Char} (hw : Solid w)
    (hc : isBlank c = false)
    (hm : Rule.match? fs.context (fs.topClass?.map (·.name)) w = none) :
    Leads fs (w ++ '\n' :: c :: cs) [] fs (w ++ ' ' :: c :: cs) := by
  intro s hs
  have hend : lineEnd ('\n' :: c :: cs) = [] := rfl
  have hrest : lineRest ('\n' :: c :: cs) = '\n' :: c :: cs := rfl
  have hrest' : lineRest (c :: cs) = lineRest cs := (lineHead_append (Solid.single hc).noBreak cs).2
  have hnext : textLines (c :: cs) = lineEnd (c :: cs) :: textLines (lineRest cs) := by
    have h := textLines_solid (Solid.single hc) cs
    rwa [← lineEnd_append (Solid.single hc)] at h
  have htexts := hs.texts
  rw [textLines_solid hw, hend, hrest, List.append_nil, textLines_newline, hnext] at htexts
  obtain ⟨line, rest, hp, hline, hlater⟩ := List.map_eq_cons_iff.mp htexts
  obtain ⟨next, later, rfl, hnextl, hlater⟩ := List.map_eq_cons_iff.mp hlater
  rw [← hs.scopes, ← hline] at hm
  obtain ⟨es, t, hstep, hcalls, h1, h2, h3⟩ := @State.step_of_unmatched s line next later hm
  refine ⟨es, t, .one hp hstep, hcalls, h1.trans hs.scopes, ?_, h3.trans hs.kept⟩
  rw [h2, List.map_cons, textLines_solid hw, hline, hnextl, hlater, lineEnd_space hc,
    lineRest_space, hrest']

/-! ## What constructs do -/

namespace Construct

variable {fs : ScopeStack}

theorem does_of_perform {k : Construct} {ks : List Call} {gs : ScopeStack} (h1 : k ≠ .enumHead)
    (h2 : k ≠ .closeBrace) (h : ∀ s : State, s.scopes = fs → calls (s.perform k).1 = ks ∧
      (s.perform k).2.scopes = gs ∧ (s.perform k).2.pending = s.pending ∧
      (s.perform k).2.tally.discarded = s.tally.discarded) : k.Does fs ks gs := by
  intro s line rest hs
  obtain ⟨hc, hg, hp, ht⟩ := h s hs
  have ha : s.act line rest k = ((s.perform k).1 ++ ((s.perform k).2.putBack line.number rest).1,
      .ok ((s.perform k).2.putBack line.number rest).2) := by
    cases k with
    | enumHead => exact absurd rfl h1
    | closeBrace => exact absurd rfl h2
    | _ => rfl
  refine ⟨_, _, ha, ?_, hg, ?_, ht⟩
  · rw [calls_append, State.calls_putBack, List.append_nil, hc]
  · rw [← hp]
    rfl

theorem does_report {k : Construct} (e : Event) (body : Option Frame) (h1 : k ≠ .enumHead)
    (h2 : k ≠ .closeBrace) (he : e.isStructural = true)
    (h : ∀ s : State, s.perform k = s.report e body) : k.Does fs [(e, fs)] (body.toList ++ fs) := by
  refine does_of_perform h1 h2 fun s hs => ?_
  rw [h s]
  refine ⟨?_, ?_, rfl, rfl⟩
  · simp [State.report, he, hs]
  · simp [State.report, State.countConstruct, hs]

theorem does_nameSpace (name : String) :
    (nameSpace name).Does fs [(.nameSpace name, fs)] (.nameSpace name false :: fs) :=
  does_report (.nameSpace name) (some (.nameSpace name false)) (by simp) (by simp) rfl fun _ => rfl

theorem does_classHead (head : Declaration.ClassHead) :
    (classHead head).Does fs [(.classHead head, fs)]
      (.classBody (.ofHead head.name head.key head.template) :: fs) :=
  does_report (.classHead head) (some (.classBody (.ofHead head.name head.key head.template)))
    (by simp) (by simp) rfl fun _ => rfl

theorem does_functionDecl (f : Signature) : (function f true).Does fs [(.functionDecl f, fs)] fs :=
  does_report (.functionDecl f) none (by simp) (by simp) rfl fun _ => rfl

theorem does_functionDef (f : Signature) :
    (function f false).Does fs [(.functionDef f, fs)] (.functionBody f.name false :: fs) :=
  does_report (.functionDef f) (some (.functionBody f.name false)) (by simp) (by simp)
    rfl fun _ => rfl

theorem does_constructorDecl (c : Declaration.Constructor) :
    (constructor c true).Does fs [(.constructorDecl c.name c.params, fs)] fs :=
  does_report (.constructorDecl c.name c.params) none (by simp) (by simp) rfl fun _ => rfl

theorem does_destructorDecl (name : String) :
    (destructor name true).Does fs [(.destructorDecl name, fs)] fs :=
  does_report (.destructorDecl name) none (by simp) (by simp) rfl fun _ => rfl

theorem does_access (level : AccessLevel) : (access level).Does fs [] (fs.setAccess level) :=
  does_of_perform (by simp) (by simp) fun s hs => by
    rw [← hs]
    exact ⟨rfl, rfl, rfl, rfl⟩

theorem does_statement : statement.Does fs [] fs :=
  does_of_perform (by simp) (by simp) fun _ hs => ⟨rfl, hs, rfl, rfl⟩

/-- A brace that opens the frame on top. -/
theorem does_openBrace {f : Frame} (hf : f.isOpened = false) :
    openBrace.Does (f :: fs) ((State.startEvent? f).toList.map (·, f.opening :: fs))
      (f.opening :: fs) := by
  refine does_of_perform (by simp) (by simp) fun s hs => ?_
  simp only [State.perform, State.openBrace, hs, hf]
  refine ⟨?_, rfl, rfl, rfl⟩
  cases f <;> simp [State.startEvent?, Event.isStructural]

/-- A brace behind an opened frame, or in no scope. -/
theorem does_openSkip (hf : ∀ f ∈ fs.head?, f.isOpened = true) :
    openBrace.Does fs [] (.skip :: fs) := by
  refine does_of_perform (by simp) (by simp) fun s hs => ?_
  cases fs with
  | nil =>
    simp only [State.perform, State.openBrace, hs]
    exact ⟨rfl, by rw [← hs]; rfl, rfl, rfl⟩
  | cons f fs =>
    simp only [State.perform, State.openBrace, hs, hf f rfl]
    exact ⟨rfl, by rw [← hs]; rfl, rfl, rfl⟩

/-- A brace that closes the frame on top. -/
theorem does_closeBrace {f : Frame} (hf : f.isOpened = true) :
    closeBrace.Does (f :: fs) ((State.endEvent? f).toList.map (·, f :: fs)) fs := by
  intro s line rest hs
  have hd : (f :: fs).dropWhile (!·.isOpened) = f :: fs := by simp [hf]
  have ht : (f :: fs).takeWhile (!·.isOpened) = [] := by simp [hf]
  have hc : s.closeBrace line.number =
      ((State.endEvent? f).toList.map s.callback, .ok { s with scopes := fs }) := by
    simp only [State.closeBrace, hs, hd, ht]
    cases f <;> simp [State.endEvent?, State.callback, hs, State.line]
  have ha : s.act line rest closeBrace = ((State.endEvent? f).toList.map s.callback ++
      ({ s with scopes := fs }.putBack line.number rest).1,
      .ok ({ s with scopes := fs }.putBack line.number rest).2) := by
    simp only [State.act, hc]
  refine ⟨_, _, ha, ?_, rfl, rfl, rfl⟩
  rw [calls_append, State.calls_putBack, List.append_nil]
  cases f <;> simp [State.endEvent?, Event.isStructural, hs]

end Construct

/-! ## Whole headers -/

/-- A header without stripped text that is read to its end in no scopes. -/
theorem parse_of_texts {source : String} {ks : List Call}
    (h : (SourceLine.ofSource source.toList).map (·.text) = textLines source.toList)
    (hl : Leads [] source.toList ks [] []) :
    ∃ f, (parse source).result = .ok f ∧ f.summary.unclosedScopes = 0 ∧ f.tally.discarded = 0 ∧
      (parse source).calls = ks := by
  obtain ⟨es, t, hr, hc, ht⟩ := hl (startOf source) ⟨rfl, h, rfl⟩
  have hp : t.pending = [] := List.map_eq_nil_iff.mp ht.texts
  obtain ⟨h1, h2⟩ := parse_of_reads hr hp
  refine ⟨_, h2, by rw [ht.scopes]; rfl, ht.kept, ?_⟩
  simp [Reading.calls, h1, calls_close, Event.isStructural, hc]

/-- A header without comments and quotes that is read to its end in no scopes. -/
theorem parse_of_leads {source : String} {ks : List Call} (h : noComment source.toList = true)
    (hl : Leads [] source.toList ks [] []) :
    ∃ f, (parse source).result = .ok f ∧ f.summary.unclosedScopes = 0 ∧ f.tally.discarded = 0 ∧
      (parse source).calls = ks :=
  parse_of_texts (texts_ofSource h) hl

end HeaderOutline
