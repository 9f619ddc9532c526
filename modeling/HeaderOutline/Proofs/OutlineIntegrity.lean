import HeaderOutline.Proofs.DocTargets
import HeaderOutline.Proofs.LineGroups
import HeaderOutline.Proofs.Shape
import HeaderOutline.HeaderFile
/-!
# What an outline refers to

The items of an outline name the scopes around them by a path, which is read off the stack when the
item is reported. A class is reported before its frame is pushed, with the path of the frames below,
and no frame below another one ever changes. So for every class frame on the stack the head of that
class has been reported, over the very frames that lie below it (`Recorded`), whether its brace has
come or not.

A member is declared directly in its class: where declarations are read, a class that is on the
stack is on top of it, or the stack holds none (`eq_cons_of_innermostClass?`). That turns what is
known of the frames into what the outline says: the path of a member is the qualified name of a
class that was reported on an earlier line, or on the same.

Results:
* `recorded_move`, `recorded_moves`: the invariant along moves, and at each report.
* `Groups.pairwise`: the reports come in the order of their lines.
* `outline_integrity`: what the items of an outline refer to is in the outline.
-/
namespace HeaderOutline
open State

/-! ## Classes on the stack -/

/-- Each class on the stack has been announced over the frames below it. -/
def Recorded (cs : List Call) (fs : ScopeStack) : Prop :=
  ∀ c gs, .classBody c :: gs <:+ fs → (.classHead ⟨c.template, c.key, c.name⟩, gs) ∈ cs

section

variable {cs ds : List Call} {fs gs : ScopeStack}

theorem recorded_nil : Recorded cs [] := by
  intro c gs h
  cases List.suffix_nil.mp h

theorem Recorded.of_suffix (h : Recorded cs gs) (hs : fs <:+ gs) : Recorded cs fs :=
  fun c hs' hc => h c hs' (hc.trans hs)

theorem Recorded.append (h : Recorded cs fs) (ds : List Call) : Recorded (cs ++ ds) fs :=
  fun c gs hc => List.mem_append_left ds (h c gs hc)

theorem recorded_cons {f : Frame} : Recorded cs (f :: fs) ↔
    (∀ c, f = .classBody c → (.classHead ⟨c.template, c.key, c.name⟩, fs) ∈ cs) ∧
      Recorded cs fs := by
  refine ⟨fun h => ⟨?_, h.of_suffix (List.suffix_cons f fs)⟩, fun ⟨htop, h⟩ c gs hs => ?_⟩
  · rintro c rfl
    exact h c fs (List.suffix_refl _)
  · rcases List.suffix_cons_iff.mp hs with heq | hs
    · obtain ⟨rfl, rfl⟩ := List.cons.inj heq
      exact htop c rfl
    · exact h c gs hs

theorem Recorded.push {f : Frame} (h : Recorded cs fs) (hf : f.class? = none) :
    Recorded cs (f :: fs) := by
  refine recorded_cons.mpr ⟨?_, h⟩
  rintro c rfl
  cases hf

/-- Only the head of the class counts, not its access or its brace. -/
theorem Recorded.setAccess (h : Recorded cs fs) (level : AccessLevel) :
    Recorded cs (fs.setAccess level) := by
  unfold ScopeStack.setAccess
  split
  · next c gs =>
    obtain ⟨htop, h⟩ := recorded_cons.mp h
    refine recorded_cons.mpr ⟨?_, h⟩
    rintro _ ⟨⟩
    exact htop c rfl
  · exact h

theorem Recorded.opening {f : Frame} (h : Recorded cs (f :: fs)) :
    Recorded cs (f.opening :: fs) := by
  cases f with
  | classBody c =>
    obtain ⟨htop, h⟩ := recorded_cons.mp h
    refine recorded_cons.mpr ⟨?_, h⟩
    rintro _ ⟨⟩
    exact htop c rfl
  | nameSpace | functionBody | linkage | skip =>
    exact (h.of_suffix (List.suffix_cons ..)).push rfl

/-- The event is one by which a class, an enum or a function comes into the outline. -/
def Event.isDeclaration : Event → Bool
  | .classHead _ => true
  | e => e.isPlain || e.bodyName?.isSome

/-- What is reported, and how the stack stands then. -/
structure Backed (cs : List Call) (call : Call) : Prop where
  recorded : Recorded cs call.2
  layered : Layered call.2
  declares : call.1.isDeclaration = true → call.2.context.declares = true

/-- A move keeps the classes on the stack recorded, also while it reports. -/
theorem recorded_move (hm : Move fs ds gs) (h : Recorded cs fs) :
    Recorded (cs ++ ds) gs ∧ ∀ call ∈ ds, Recorded cs call.2 := by
  cases hm with
  | stay => exact ⟨h.append _, fun _ hc => absurd hc List.not_mem_nil⟩
  | define | plain => exact ⟨h.append _, fun _ hc => by rw [List.mem_singleton.mp hc]; exact h⟩
  | access level _ => exact ⟨(h.setAccess level).append _, fun _ hc => absurd hc List.not_mem_nil⟩
  | linkage | skips => exact ⟨(h.push rfl).append _, fun _ hc => absurd hc List.not_mem_nil⟩
  | nameSpace | body =>
    exact ⟨(h.push rfl).append _, fun _ hc => by rw [List.mem_singleton.mp hc]; exact h⟩
  | classHead head _ =>
    refine ⟨recorded_cons.mpr ⟨?_, h.append _⟩,
      fun _ hc => by rw [List.mem_singleton.mp hc]; exact h⟩
    rintro _ ⟨⟩
    exact List.mem_append_right cs (List.mem_singleton.mpr rfl)
  | opens _ =>
    refine ⟨h.opening.append _, fun call hc => ?_⟩
    obtain ⟨e, -, rfl⟩ := List.mem_map.mp hc
    exact h.opening
  | @closes hs f _ _ _ =>
    have hf : Recorded cs (f :: gs) := h.of_suffix (List.suffix_append hs _)
    refine ⟨(hf.of_suffix (List.suffix_cons f gs)).append _, fun call hc => ?_⟩
    obtain ⟨e, -, rfl⟩ := List.mem_map.mp hc
    exact hf

/-- The stack that a report shows keeps the layers in order, and declarations are reported where
they are read. -/
theorem shown_move (hm : Move fs ds gs) (h : Layered fs) : ∀ call ∈ ds,
    Layered call.2 ∧ (call.1.isDeclaration = true → call.2.context.declares = true) := by
  intro call hc
  cases hm with
  | stay | access | linkage | skips => cases hc
  | define _ item => rw [List.mem_singleton.mp hc]; exact ⟨h, fun he => by cases he⟩
  | nameSpace name _ => rw [List.mem_singleton.mp hc]; exact ⟨h, fun he => by cases he⟩
  | plain hd _ | classHead _ hd | body hd _ =>
    rw [List.mem_singleton.mp hc]; exact ⟨h, fun _ => hd⟩
  | @opens f fs _ =>
    obtain ⟨e, he, rfl⟩ := List.mem_map.mp hc
    refine ⟨layered_of_layers h (by simp [layer_opening]), fun hd => ?_⟩
    cases f <;> simp [State.startEvent?] at he <;> rw [he] at hd <;> cases hd
  | @closes hs f fs _ _ =>
    obtain ⟨e, he, rfl⟩ := List.mem_map.mp hc
    refine ⟨layered_of_suffix h (List.suffix_append hs _), fun hd => ?_⟩
    cases f <;> simp [State.endEvent?] at he <;> rw [he] at hd <;> cases hd

/-- At each report of a sequence of moves, what came before backs the stack that is shown. -/
theorem recorded_moves (hm : Moves fs ds gs) (h : Recorded cs fs) (hl : Layered fs) :
    ∀ as call bs, ds = as ++ call :: bs → Backed (cs ++ as) call := by
  induction hm generalizing cs with
  | refl => exact fun as call bs heq => absurd heq (by simp)
  | @next fs gs hs c1 c2 hm _ ih =>
    intro as call bs heq
    obtain ⟨hnext, hshown⟩ := recorded_move hm h
    have ih := ih hnext (layered_move hm hl)
    rcases List.append_eq_append_iff.mp heq with ⟨as', rfl, h2⟩ | ⟨bs', rfl, h2⟩
    · have hb := ih as' call bs h2
      rwa [List.append_assoc] at hb
    · cases bs' with
      | nil =>
        have hb := ih [] call bs h2.symm
        simpa using hb
      | cons d bs' =>
        obtain ⟨rfl, -⟩ := List.cons.inj h2
        have hc : call ∈ as ++ call :: bs' := by simp
        obtain ⟨hfirst, hsecond⟩ := shown_move hm hl call hc
        exact ⟨(hshown call hc).append as, hfirst, hsecond⟩

end

/-! ## Reports in the order of the lines -/

theorem IsGroup.line {l : SourceLine} {cs : List Callback} (h : IsGroup l cs) :
    ∀ c ∈ cs, c.line = l.number := by
  obtain ⟨_, d, rfl, ⟨b, ds, rfl, ⟨-, hb⟩, hds⟩, -, hd⟩ := h
  intro c hc
  simp only [List.cons_append, List.mem_cons, List.mem_append, List.not_mem_nil, or_false] at hc
  rcases hc with rfl | hc | rfl
  · exact hb
  · exact (hds c hc).2
  · exact hd

theorem Groups.line_mem {ls : List SourceLine} {cs : List Callback} (h : Groups ls cs) :
    ∀ c ∈ cs, ∃ l ∈ ls, c.line = l.number := by
  induction h with
  | nil => exact fun c hc => absurd hc List.not_mem_nil
  | @cons l ls cs ds hg _ ih =>
    intro c hc
    rcases List.mem_append.mp hc with hc | hc
    · exact ⟨l, List.mem_cons_self, hg.line c hc⟩
    · obtain ⟨m, hm, heq⟩ := ih c hc
      exact ⟨m, List.mem_cons_of_mem l hm, heq⟩

/-- The groups of lines in order report in the order of the lines. -/
theorem Groups.pairwise {ls : List SourceLine} {cs : List Callback} (h : Groups ls cs)
    (hl : ls.Pairwise (·.number < ·.number)) : cs.Pairwise (·.line ≤ ·.line) := by
  induction h with
  | nil => exact .nil
  | @cons l ls cs ds hg hgs ih =>
    obtain ⟨hlt, hl⟩ := List.pairwise_cons.mp hl
    refine List.pairwise_append.mpr ⟨?_, ih hl, fun c hc d hd => ?_⟩
    · exact List.pairwise_of_forall_mem_list fun c hc d hd => by
        rw [hg.line c hc, hg.line d hd]
    · obtain ⟨m, hm, heq⟩ := hgs.line_mem d hd
      rw [hg.line c hc, heq]
      exact Nat.le_of_lt (hlt m hm)

/-- A header that is read to its end reports its constructs in the order of their lines. -/
theorem pairwise_structural {source : String} {f : Finished} (h : (parse source).result = .ok f) :
    (structural (parse source).callbacks).Pairwise (·.line ≤ ·.line) := by
  have hl : (SourceLine.ofSource source.toList).Pairwise (·.number < ·.number) :=
    SourceLine.pairwise_ofLines ..
  have hstart : Along (SourceLine.ofSource source.toList) [] (startOf source) := .start rfl rfl
  obtain ⟨es, t, hr, ht | ⟨line, later, fs, e, hp, hs⟩⟩ := exists_reads (startOf source)
  · obtain ⟨ls, hsub, c, ds, d, heq, hc, hg, hd⟩ :=
      (along_of_reads hl hr hstart).isStream_close (c := ⟨.parseStart, 0, []⟩) rfl
    have hp : structural ds = structural (parse source).callbacks := by
      rw [(parse_of_run (run_of_reads hr ht)).1, callbacksOf_append]
      rw [List.nil_append] at heq
      rw [heq]
      simp [structural, hc, hd, Event.isStructural]
    rw [← hp]
    exact List.Pairwise.filter _ (hg.pairwise (hl.sublist hsub))
  · rw [(parse_of_run (run_of_reads_error hr hp hs)).2.1 e rfl] at h
    cases h

/-- At each construct of a header, what was reported before backs the scopes that it shows. -/
theorem backed_of_mem {source : String} {before after : List Callback} {c : Callback}
    (h : structural (parse source).callbacks = before ++ c :: after) :
    Backed (before.map Callback.call) c.call := by
  obtain ⟨fs, hm, -⟩ := parse_moves source
  have hcalls : (parse source).calls = before.map Callback.call ++ c.call ::
      after.map Callback.call := by
    rw [Reading.calls, calls_eq_structural, ← callbacks_eq, h]
    simp
  exact recorded_moves hm (recorded_nil : Recorded [] []) layered_nil _ _ _ hcalls

/-! ## Paths -/

@[simp] theorem ScopeStack.path_classBody (c : ClassBody) (fs : ScopeStack) :
    ScopeStack.path (.classBody c :: fs) = ScopeStack.path fs ++ [c.name] := by
  simp [ScopeStack.path, Frame.qualifier?]

theorem ScopeStack.path_append (fs gs : ScopeStack) :
    ScopeStack.path (fs ++ gs) = ScopeStack.path gs ++ ScopeStack.path fs := by
  simp [ScopeStack.path]

/-- Where declarations are read, the innermost class is on top. -/
theorem eq_cons_of_innermostClass? {fs : ScopeStack} {c : ClassBody} (h : Layered fs)
    (hd : fs.context.declares = true) (hc : fs.innermostClass? = some c) :
    ∃ gs, fs = .classBody c :: gs := by
  cases hx : fs.context with
  | classBody =>
    obtain ⟨d, hd⟩ := head_of_classBody h hx
    obtain ⟨gs, rfl⟩ := List.head?_eq_some_iff.mp hd
    have hdc : some d = some c := hc
    exact ⟨gs, by rw [Option.some.inj hdc]⟩
  | nameSpace =>
    -- No frame of a class lies in the layer of the namespaces.
    obtain ⟨f, hf, hfc⟩ := List.mem_filterMap.mp (List.mem_of_head? hc)
    have hlayer := layer_le_context h f hf
    rw [hx] at hlayer
    cases f <;> simp [Frame.class?, Frame.layer, Context.layer] at hfc hlayer
  | functionBody | skip => rw [hx] at hd; cases hd

/-- A qualified name is that of the scope, with the name behind it. -/
theorem qualify_of_ne_nil {path : List String} (h : path ≠ []) (name : String) :
    qualify path name = "::".intercalate path ++ "::" ++ name := by
  rw [qualify, String.intercalate_append_of_ne_nil h (List.cons_ne_nil name []),
    String.intercalate_singleton]

/-! ## Outlines -/

namespace Callback

variable {b : Callback}

theorem function?_eq_some {f : FunctionItem} (h : b.function? = some f) :
    b.event.isDeclaration = true ∧ f.path = b.scopes.path ∧ f.access = b.access? ∧
      f.inTemplate = b.scopes.insideTemplate ∧ f.line = b.line := by
  rcases b with ⟨e, n, fs⟩
  cases e <;> cases h <;> exact ⟨rfl, rfl, rfl, rfl, rfl⟩

theorem class?_eq_some {c : ClassItem} (h : b.class? = some c) :
    ∃ head, b.event = .classHead head ∧
    c = ⟨head.name, qualify b.scopes.path head.name, head.key, head.template, b.access?, b.line⟩ := by
  rcases b with ⟨e, n, fs⟩
  cases e <;> cases h
  exact ⟨_, rfl, rfl⟩

theorem isStructural_of_isDeclaration (h : b.event.isDeclaration = true) :
    b.event.isStructural = true := by
  rcases b with ⟨e, n, fs⟩
  cases e <;> first | rfl | cases h

end Callback

section

open Declaration

variable {ts rest : List Token}

theorem exists_name_of_classHead? {head : ClassHead} (h : classHead? ts = some (head, rest)) :
    ∃ t ∈ ts, t.isName = true ∧ t.text = head.name := by
  simp only [classHead?, Option.bind_eq_bind, Option.bind_eq_some_iff] at h
  obtain ⟨⟨template, r1⟩, h1, ⟨key, r2⟩, h2, ⟨name, r3⟩, h3, h4⟩ := h
  have hs := (suffix_of_classKey? h2).trans (suffix_of_templateHead? h1)
  split at h4
  · cases h4
    cases r2 with
    | nil => cases h3
    | cons t us =>
      rw [name?] at h3
      split at h3
      · next hname =>
        cases h3
        exact ⟨t, hs.subset List.mem_cons_self, hname, rfl⟩
      · cases h3
  · cases h4

end

theorem exists_name_of_classHead {source : String} {b : Callback} {head : Declaration.ClassHead}
    (hb : b ∈ (parse source).callbacks) (he : b.event = .classHead head) :
    ∃ cs, ∃ t ∈ Token.tokens cs, t.isName = true ∧ t.text = head.name := by
  have hk : b.event.isStructural = true := by rw [he]; rfl
  obtain ⟨s, line, later, es, t, -, -, hs, hmem⟩ := exists_step_of_mem_callbacks hb hk
  obtain ⟨-, rule, k, rest, hf, hevent⟩ := found?_of_mem_step hs hmem hk
  rw [he] at hevent
  have hfound := (Rule.recognize?_of_match? hf).2
  rcases hevent with hevent | ⟨d, hd⟩ | hbrace
  · cases Rule.makes_of_recognize? hfound with
    | classHead head' =>
      cases hevent
      obtain ⟨⟨head', r⟩, hd, heq⟩ := Option.map_eq_some_iff.mp hfound
      cases heq
      exact ⟨line.text, exists_name_of_classHead? hd⟩
    | callOperator s terminated | operator s terminated | function s terminated
    | destructor s terminated | constructor s terminated =>
      cases terminated <;> cases hevent
    | _ => cases hevent
  · cases hd
  · cases hbrace

theorem plain_of_classHead {source : String} {b : Callback} {head : Declaration.ClassHead}
    (hb : b ∈ (parse source).callbacks) (he : b.event = .classHead head) :
    IsPlainName head.name := by
  obtain ⟨cs, t, ht, hname, htext⟩ := exists_name_of_classHead hb he
  simp only [Token.isName, Bool.and_eq_true, beq_iff_eq] at hname
  rw [← htext]
  exact lexical_tokens cs t ht hname.1

section

variable {source : String} {f : Finished}

/-- For each class frame that a construct shows, its class was reported on a line that is not after
the construct. -/
theorem exists_classHead_of_frame (hr : (parse source).result = .ok f) {b : Callback}
    (hb : b ∈ (parse source).callbacks) (hk : b.event.isStructural = true) {c : ClassBody}
    {gs : ScopeStack} (hc : .classBody c :: gs <:+ b.scopes) :
    ∃ a ∈ (parse source).callbacks, a.event = .classHead ⟨c.template, c.key, c.name⟩ ∧
      a.scopes = gs ∧ a.line ≤ b.line := by
  have hmem : b ∈ structural (parse source).callbacks := List.mem_filter.mpr ⟨hb, hk⟩
  obtain ⟨before, after, hsplit⟩ := List.append_of_mem hmem
  obtain ⟨a, ha, heq⟩ := List.mem_map.mp ((backed_of_mem hsplit).recorded c gs hc)
  obtain ⟨he, hsc⟩ := Prod.mk.inj heq
  have hp := pairwise_structural hr
  rw [hsplit] at hp
  have hin : a ∈ structural (parse source).callbacks := by
    rw [hsplit]
    exact List.mem_append_left _ ha
  exact ⟨a, (List.mem_filter.mp hin).1, he, hsc,
    (List.pairwise_append.mp hp).2.2 a ha b List.mem_cons_self⟩

/-- So that class is in the outline, under the path of the frame. -/
theorem exists_class_of_frame (hr : (parse source).result = .ok f) {b : Callback}
    (hb : b ∈ (parse source).callbacks) (hk : b.event.isStructural = true) {c : ClassBody}
    {gs : ScopeStack} (hc : .classBody c :: gs <:+ b.scopes) :
    ∃ d ∈ (Outline.ofCallbacks (parse source).callbacks).classes,
      d.qualifiedName = "::".intercalate (ScopeStack.path (.classBody c :: gs)) ∧
        d.template = c.template ∧ d.line ≤ b.line := by
  obtain ⟨a, ha, he, hsc, hline⟩ := exists_classHead_of_frame hr hb hk hc
  refine ⟨⟨c.name, qualify gs.path c.name, c.key, c.template, a.access?, a.line⟩,
    List.mem_filterMap.mpr ⟨a, ha, ?_⟩, ?_, rfl, hline⟩
  · rw [← hsc]
    simp [Callback.class?, he]
  · rw [ScopeStack.path_classBody]
    rfl

/-- The class that a declaration is a member of is in the outline, under the path of the
declaration. -/
theorem exists_class_of_member (hr : (parse source).result = .ok f) {b : Callback}
    (hb : b ∈ (parse source).callbacks) (hd : b.event.isDeclaration = true)
    (ha : b.access?.isSome = true) :
    b.scopes.path ≠ [] ∧ ∃ d ∈ (Outline.ofCallbacks (parse source).callbacks).classes,
      d.qualifiedName = "::".intercalate b.scopes.path ∧ d.line ≤ b.line := by
  have hk := Callback.isStructural_of_isDeclaration hd
  obtain ⟨c, hc⟩ := Option.isSome_iff_exists.mp (by simpa [Callback.access?] using ha)
  have hmem : b ∈ structural (parse source).callbacks := List.mem_filter.mpr ⟨hb, hk⟩
  obtain ⟨before, after, hsplit⟩ := List.append_of_mem hmem
  have hback := backed_of_mem hsplit
  obtain ⟨gs, heq⟩ := eq_cons_of_innermostClass? hback.layered (hback.declares hd) hc
  have heq : b.scopes = .classBody c :: gs := heq
  obtain ⟨d, hd, hq, -, hline⟩ := exists_class_of_frame hr hb hk (by rw [heq])
  rw [heq, ScopeStack.path_classBody]
  exact ⟨by simp, d, hd, by rwa [ScopeStack.path_classBody] at hq, hline⟩

end

/-- A list that is picked from the constructs of a header is in the order of their lines. -/
theorem pairwise_items {α : Type} {source : String} {f : Finished}
    (hr : (parse source).result = .ok f) {item? : Callback → Option α} {line : α → Nat}
    (hline : ∀ b a, item? b = some a → b.event.isStructural = true ∧ line a = b.line) :
    ((parse source).callbacks.filterMap item?).Pairwise fun a b => line a ≤ line b := by
  have heq : (parse source).callbacks.filterMap item? =
      (structural (parse source).callbacks).filterMap item? := by
    rw [structural, List.filterMap_filter]
    refine List.filterMap_congr fun b _ => ?_
    split
    · rfl
    · next hk =>
      exact Option.eq_none_iff_forall_ne_some.mpr fun a ha => hk (hline b a ha).1
  rw [heq, List.pairwise_filterMap]
  refine (pairwise_structural hr).imp fun {b c} hle a ha d hd => ?_
  rw [(hline b a ha).2, (hline c d hd).2]
  exact hle

/-- What the items of an outline refer to is in the outline. A member has the path of a class that
is recorded on its line or before. The qualified name of a class is its name behind the path of the
scopes where its head was reported, and for a class in a class what stands before its name is the
qualified name of that class. A function in a template stands somewhere inside a recorded class
template. Each list is in the order of the lines. -/
theorem outline_integrity {source : String} {o : Outline} (h : outline source = .ok o) :
    (∀ f ∈ o.functions, f.access.isSome = true →
      ∃ d ∈ o.classes, d.qualifiedName = "::".intercalate f.path ∧ d.line ≤ f.line) ∧
    (∀ c ∈ o.classes, IsPlainName c.name ∧ ∃ b ∈ (parse source).callbacks, b.class? = some c ∧
      c.qualifiedName = qualify b.scopes.path c.name ∧
      (c.declaredAccess.isSome = true → ∃ d ∈ o.classes,
        d.qualifiedName = "::".intercalate b.scopes.path ∧
        c.qualifiedName = d.qualifiedName ++ "::" ++ c.name ∧ d.line ≤ c.line)) ∧
    (∀ f ∈ o.functions, f.inTemplate = true → ∃ d ∈ o.classes, d.isTemplate = true ∧
      ∃ front rest, front ≠ [] ∧ f.path = front ++ rest ∧
        d.qualifiedName = "::".intercalate front) ∧
    o.macros.Pairwise (·.line ≤ ·.line) ∧ o.namespaces.Pairwise (·.line ≤ ·.line) ∧
      o.classes.Pairwise (·.line ≤ ·.line) ∧ o.enums.Pairwise (·.line ≤ ·.line) ∧
      o.functions.Pairwise (·.line ≤ ·.line) := by
  obtain ⟨f, hr, rfl⟩ := exists_of_outline h
  refine ⟨fun g hg ha => ?methods, fun c hc => ?classes, fun g hg ht => ?templates,
    pairwise_items hr ?_, pairwise_items hr ?_, pairwise_items hr ?_, pairwise_items hr ?_,
    pairwise_items hr ?_⟩
  case methods =>
    obtain ⟨b, hb, hf⟩ := List.mem_filterMap.mp hg
    obtain ⟨hd, hpath, haccess, -, hline⟩ := Callback.function?_eq_some hf
    rw [haccess] at ha
    rw [hpath, hline]
    exact (exists_class_of_member hr hb hd ha).2
  case classes =>
    obtain ⟨b, hb, hclass⟩ := List.mem_filterMap.mp hc
    obtain ⟨head, he, rfl⟩ := Callback.class?_eq_some hclass
    refine ⟨plain_of_classHead hb he, b, hb, hclass, rfl, fun ha => ?_⟩
    obtain ⟨hne, d, hd, hq, hline⟩ := exists_class_of_member hr hb (by rw [he]; rfl) ha
    refine ⟨d, hd, hq, ?_, hline⟩
    rw [hq]
    exact qualify_of_ne_nil hne head.name
  case templates =>
    obtain ⟨b, hb, hf⟩ := List.mem_filterMap.mp hg
    obtain ⟨hd, hpath, -, htemplate, -⟩ := Callback.function?_eq_some hf
    rw [htemplate] at ht
    obtain ⟨c, hc, hct⟩ := List.any_eq_true.mp ht
    obtain ⟨frame, hframe, hfc⟩ := List.mem_filterMap.mp hc
    obtain rfl : frame = .classBody c := by cases frame <;> cases hfc; rfl
    obtain ⟨inner, gs, hsplit⟩ := List.append_of_mem hframe
    obtain ⟨d, hd, hq, hdt, -⟩ := exists_class_of_frame hr hb
      (Callback.isStructural_of_isDeclaration hd) (hsplit ▸ List.suffix_append inner _)
    refine ⟨d, hd, by rwa [ClassItem.isTemplate, hdt], _, ScopeStack.path inner, ?_, ?_, hq⟩
    · simp
    · rw [hpath, hsplit, ScopeStack.path_append]
  all_goals
    rintro ⟨e, n, fs⟩ a ha
    cases e <;> cases ha <;> exact ⟨rfl, rfl⟩

/-- A class template in a namespace, with a class and a method in it. -/
def nestedTemplate : String :=
  "namespace n \x7b\ntemplate <typename T>\nclass A \x7b\nstruct B \x7b\nB();\n\x7d;\n\x7d;\n\x7d\n"

theorem outline_integrity_nestedTemplate : ∃ o, outline nestedTemplate = .ok o ∧
    o.classes.map (·.qualifiedName) = ["n::A", "n::A::B"] ∧
    ∃ f ∈ o.functions, f.access.isSome = true ∧ f.inTemplate = true ∧
      ∃ d ∈ o.classes, d.qualifiedName = "::".intercalate f.path ∧ d.line ≤ f.line := by
  have ho : ∃ o, outline nestedTemplate = .ok o ∧
      o.classes.map (·.qualifiedName) = ["n::A", "n::A::B"] ∧
      ∃ f ∈ o.functions, f.access.isSome = true ∧ f.inTemplate = true :=
    ⟨Outline.ofCallbacks (parse nestedTemplate).callbacks, by decide +kernel, by decide +kernel,
      by decide +kernel⟩
  obtain ⟨o, h, hnames, f, hf, ha, ht⟩ := ho
  exact ⟨o, h, hnames, f, hf, ha, ht, (outline_integrity h).1 f hf ha⟩

end HeaderOutline
