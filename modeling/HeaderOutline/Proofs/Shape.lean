import HeaderOutline.Proofs.Move
/-!
# The shape of the scope stack

Read from the outside, the stack is made of namespaces and linkage blocks, then classes, then at
most one body, then skipped braces. Nothing checks this: it follows from the contexts to which the
moves are confined, since the context is the layer of the innermost frames (`layer_le_context`).

Results:
* `layered_move`, `layered_moves`: every move keeps the layers in order.
* `stack_shape`: the form of the stack after every fragment, and that inside bodies and skipped
  braces only macros are reported.
-/
namespace HeaderOutline

/-- How far inside a frame of this kind lies. -/
def Frame.layer : Frame → Nat
  | .nameSpace .. | .linkage _ => 0
  | .classBody _ => 1
  | .functionBody .. => 2
  | .skip => 3

/-- The layer of the frame that decides the context. -/
def Context.layer : Context → Nat
  | .nameSpace => 0
  | .classBody => 1
  | .functionBody => 2
  | .skip => 3

/-- No frame lies in a deeper layer than one inside it, and there is at most one body. -/
def Layered (fs : ScopeStack) : Prop :=
  (fs.map Frame.layer).Pairwise fun inner outer => outer ≤ inner ∧ (inner = 2 → outer ≠ 2)

theorem layered_nil : Layered [] := List.Pairwise.nil

theorem layered_cons {f : Frame} {fs : ScopeStack} :
    Layered (f :: fs) ↔
      (∀ g ∈ fs, g.layer ≤ f.layer ∧ (f.layer = 2 → g.layer ≠ 2)) ∧ Layered fs := by
  simp [Layered]

theorem layered_of_suffix {fs gs : ScopeStack} (h : Layered gs) (hs : fs <:+ gs) : Layered fs :=
  List.Pairwise.sublist (hs.sublist.map _) h

theorem layered_of_layers {fs gs : ScopeStack} (h : Layered fs)
    (he : gs.map Frame.layer = fs.map Frame.layer) : Layered gs := by
  unfold Layered at h ⊢
  rwa [he]

theorem layer_opening (f : Frame) : f.opening.layer = f.layer := by cases f <;> rfl

theorem layers_setAccess (level : AccessLevel) (fs : ScopeStack) :
    (fs.setAccess level).map Frame.layer = fs.map Frame.layer := by
  unfold ScopeStack.setAccess
  split <;> rfl

/-- Nothing on the stack lies in a deeper layer than the context. -/
theorem layer_le_context : ∀ {fs : ScopeStack}, Layered fs → ∀ f ∈ fs, f.layer ≤ fs.context.layer
  | [], _, _, hf => by cases hf
  | g :: fs, h, f, hf => by
    obtain ⟨hg, hfs⟩ := layered_cons.mp h
    have hg' : f = g ∨ f ∈ fs := List.mem_cons.mp hf
    cases g with
    | linkage opened =>
      rcases hg' with rfl | hf
      · exact Nat.zero_le _
      · exact layer_le_context hfs f hf
    | nameSpace name opened => rcases hg' with rfl | hf; exacts [Nat.le_refl _, (hg f hf).1]
    | classBody c => rcases hg' with rfl | hf; exacts [Nat.le_refl _, (hg f hf).1]
    | functionBody name opened => rcases hg' with rfl | hf; exacts [Nat.le_refl _, (hg f hf).1]
    | skip => rcases hg' with rfl | hf; exacts [Nat.le_refl _, (hg f hf).1]

theorem layer_le_one {fs : ScopeStack} (h : Layered fs) (hd : fs.context.declares = true) :
    ∀ f ∈ fs, f.layer ≤ 1 := by
  intro f hf
  have hle := layer_le_context h f hf
  cases hc : fs.context <;> rw [hc] at hle hd
  · exact Nat.le_succ_of_le hle
  · exact hle
  · cases hd
  · cases hd

/-- A frame may be pushed when nothing lies deeper, and a body only when there is none yet. -/
theorem layered_push {g : Frame} {fs : ScopeStack} (h : Layered fs)
    (hle : ∀ f ∈ fs, f.layer ≤ g.layer) (hb : g.layer = 2 → ∀ f ∈ fs, f.layer ≤ 1) :
    Layered (g :: fs) :=
  layered_cons.mpr ⟨fun f hf => ⟨hle f hf, fun hg => by have := hb hg f hf; omega⟩, h⟩

/-- Every move keeps the layers in order. -/
theorem layered_move {fs gs : ScopeStack} {cs : List Call} (hm : Move fs cs gs) (h : Layered fs) :
    Layered gs := by
  cases hm with
  | stay | define | plain => exact h
  | access level _ => exact layered_of_layers h (layers_setAccess level fs)
  | linkage hc =>
    refine layered_push h (fun f hf => ?_) (fun h2 => by cases h2)
    have := layer_le_context h f hf; rwa [hc] at this
  | nameSpace name hc =>
    refine layered_push h (fun f hf => ?_) (fun h2 => by cases h2)
    have := layer_le_context h f hf; rwa [hc] at this
  | classHead head hd => exact layered_push h (layer_le_one h hd) (fun h2 => by cases h2)
  | body hd _ =>
    exact layered_push h (fun f hf => Nat.le_succ_of_le (layer_le_one h hd f hf))
      fun _ => layer_le_one h hd
  | opens _ => exact layered_of_layers h (by simp [layer_opening])
  | skips _ =>
    refine layered_push h (fun f _ => ?_) (fun h2 => by cases h2)
    cases f <;> simp [Frame.layer]
  | closes _ _ => exact layered_of_suffix h ((List.suffix_cons _ _).trans (List.suffix_append _ _))

/-- What is reported over a stack that holds a body or a skipped brace is a macro. -/
theorem define_of_move {fs gs : ScopeStack} {cs : List Call} (hm : Move fs cs gs) (h : Layered fs)
    {e : Event} {ks : ScopeStack} (hc : (e, ks) ∈ cs) (hk : ∃ f ∈ ks, 2 ≤ f.layer) :
    ∃ item, e = .define item := by
  obtain ⟨f, hf, h2⟩ := hk
  -- Over a stack whose layers end at 1 there is no such frame.
  have hlow : ∀ js : ScopeStack, (∀ g ∈ js, g.layer ≤ 1) → ks = js → False := by
    rintro js hj rfl
    have := hj f hf
    omega
  cases hm with
  | stay | access | linkage | skips => cases hc
  | define _ item => cases List.mem_singleton.mp hc; exact ⟨item, rfl⟩
  | plain hd _ | classHead _ hd | body hd _ =>
    exact absurd (congrArg Prod.snd (List.mem_singleton.mp hc)) (hlow _ (layer_le_one h hd))
  | nameSpace _ hx =>
    have hd : fs.context.declares = true := by rw [hx]; rfl
    exact absurd (congrArg Prod.snd (List.mem_singleton.mp hc)) (hlow _ (layer_le_one h hd))
  | @opens g ks' _ =>
    obtain ⟨e', he', heq⟩ := List.mem_map.mp hc
    cases heq
    refine absurd rfl (hlow _ fun x hx => ?_)
    have hg : g.layer ≤ 1 := by
      cases g <;> simp [State.startEvent?, Frame.layer] at he' ⊢
    rcases List.mem_cons.mp hx with rfl | hx
    · rwa [layer_opening]
    · have := ((layered_cons.mp h).1 x hx).1
      omega
  | @closes hs g ks' _ _ =>
    obtain ⟨e', he', heq⟩ := List.mem_map.mp hc
    cases heq
    have h := layered_of_suffix h (List.suffix_append hs _)
    refine absurd rfl (hlow _ fun x hx => ?_)
    have hg : g.layer ≤ 1 := by
      cases g <;> simp [State.endEvent?, Frame.layer] at he' ⊢
    rcases List.mem_cons.mp hx with rfl | hx
    · exact hg
    · have := ((layered_cons.mp h).1 x hx).1
      omega

/-- Along any sequence of moves the layers stay in order, and over a stack that holds a body or a
skipped brace only macros are reported. -/
theorem layered_moves {fs gs : ScopeStack} {cs : List Call} (hm : Moves fs cs gs) (h : Layered fs) :
    Layered gs ∧ ∀ e ks, (e, ks) ∈ cs → (∃ f ∈ ks, 2 ≤ f.layer) → ∃ item, e = .define item := by
  induction hm with
  | refl => exact ⟨h, fun _ _ hc => by cases hc⟩
  | next hm _ ih =>
    obtain ⟨h1, h2⟩ := ih (layered_move hm h)
    refine ⟨h1, fun e ks hc hk => ?_⟩
    rcases List.mem_append.mp hc with hc | hc
    · exact define_of_move hm h hc hk
    · exact h2 e ks hc hk

/-! ## The form of the stack -/

theorem layer_eq_zero {f : Frame} (h : f.layer = 0) :
    f.kind = .nameSpace ∨ f.kind = .linkage := by
  cases f <;> simp [Frame.layer, Frame.kind] at h ⊢

theorem layer_eq_one {f : Frame} (h : f.layer = 1) :
    f.kind = .classBody ∨ f.kind = .templateClass := by
  cases f <;> simp [Frame.layer, Frame.kind] at h ⊢
  exact Classical.em _

theorem layer_eq_two {f : Frame} (h : f.layer = 2) : f.kind = .functionBody := by
  cases f <;> simp [Frame.layer, Frame.kind] at h ⊢

/-- Frames in order of their layers come in four runs. -/
theorem runs_of_layered : ∀ {fs : ScopeStack}, Layered fs → ∃ skips bodies classes outer,
    fs = skips ++ bodies ++ classes ++ outer ∧ (∀ f ∈ skips, f.layer = 3) ∧
      (bodies.length ≤ 1 ∧ ∀ f ∈ bodies, f.layer = 2) ∧ (∀ f ∈ classes, f.layer = 1) ∧
      ∀ f ∈ outer, f.layer = 0
  | [], _ => ⟨[], [], [], [], rfl, by simp, by simp, by simp, by simp⟩
  | g :: fs, h => by
    obtain ⟨hg, hfs⟩ := layered_cons.mp h
    obtain ⟨skips, bodies, classes, outer, rfl, hs, ⟨hb1, hb⟩, hc, ho⟩ := runs_of_layered hfs
    -- A run is empty when its frames would lie deeper than the frame inside them.
    have none_of : ∀ {run : ScopeStack}, (∀ f ∈ run, f ∈ skips ++ bodies ++ classes ++ outer) →
        (∀ f ∈ run, ¬ (f.layer ≤ g.layer ∧ (g.layer = 2 → f.layer ≠ 2))) → run = [] := by
      intro run hin hno
      exact List.eq_nil_iff_forall_not_mem.mpr fun f hf => hno f hf (hg f (hin f hf))
    have hskips : g.layer < 3 → skips = [] := fun hlt =>
      none_of (fun f hf => by simp [hf]) fun f hf => by have := hs f hf; omega
    have hbodies : g.layer < 3 → bodies = [] := fun hlt =>
      none_of (fun f hf => by simp [hf]) fun f hf => by have := hb f hf; omega
    have hclasses : g.layer < 1 → classes = [] := fun hlt =>
      none_of (fun f hf => by simp [hf]) fun f hf => by have := hc f hf; omega
    have hcases : g.layer = 3 ∨ g.layer = 2 ∨ g.layer = 1 ∨ g.layer = 0 := by
      cases g <;> simp [Frame.layer]
    rcases hcases with h3 | h2 | h1 | h0
    · exact ⟨g :: skips, bodies, classes, outer, by simp, by simpa [h3] using hs, ⟨hb1, hb⟩, hc, ho⟩
    · obtain rfl := hskips (by omega)
      obtain rfl := hbodies (by omega)
      exact ⟨[], [g], classes, outer, by simp, by simp, by simpa using h2, hc, ho⟩
    · obtain rfl := hskips (by omega)
      obtain rfl := hbodies (by omega)
      exact ⟨[], [], g :: classes, outer, by simp, by simp, by simp, by simpa [h1] using hc, ho⟩
    · obtain rfl := hskips (by omega)
      obtain rfl := hbodies (by omega)
      obtain rfl := hclasses (by omega)
      exact ⟨[], [], [], g :: outer, by simp, by simp, by simp, by simp, by simpa [h0] using ho⟩

/-- In a class the top frame is that class: no linkage block lies in between. -/
theorem head_of_classBody {fs : ScopeStack} (h : Layered fs) (hc : fs.context = .classBody) :
    ∃ c, fs.head? = some (.classBody c) := by
  cases fs with
  | nil => cases hc
  | cons f fs =>
    cases f with
    | classBody c => exact ⟨c, rfl⟩
    | nameSpace | functionBody | skip => cases hc
    | linkage opened =>
      -- Then the class would lie outside the linkage block, in a deeper layer.
      exfalso
      obtain ⟨hl, hfs⟩ := layered_cons.mp h
      have hzero : ∀ g ∈ fs, g.layer = 0 := fun g hg => Nat.le_zero.mp (hl g hg).1
      have hctx : ∀ {gs : ScopeStack}, (∀ g ∈ gs, g.layer = 0) → gs.context = .nameSpace := by
        intro gs
        induction gs with
        | nil => exact fun _ => rfl
        | cons g gs ih =>
          intro hz
          cases g with
          | linkage o => exact ih fun x hx => hz x (List.mem_cons_of_mem _ hx)
          | nameSpace => rfl
          | classBody | functionBody | skip => have := hz _ List.mem_cons_self; cases this
      have : ScopeStack.context fs = .classBody := hc
      rw [hctx hzero] at this
      cases this

theorem layered_of_reachable {source : String} {s : State} (h : Reachable source s) :
    Layered s.scopes := by
  obtain ⟨es, hr⟩ := h
  exact (layered_moves (State.moves_of_reads hr) layered_nil).1

/-- After every fragment the stack is, from the outside, a run of namespaces and linkage blocks, a
run of classes, at most one body, and a run of skipped braces. So in a class its frame is on top,
and no linkage block lies inside a class. Over a stack that holds a body or a skipped brace no
construct but a macro is ever reported. -/
theorem stack_shape (source : String) :
    (∀ s, Reachable source s →
      (∃ outer classes bodies skips, s.scopes.reverse = outer ++ classes ++ bodies ++ skips ∧
        (∀ f ∈ outer, f.kind = .nameSpace ∨ f.kind = .linkage) ∧
        (∀ f ∈ classes, f.kind = .classBody ∨ f.kind = .templateClass) ∧
        bodies.length ≤ 1 ∧ (∀ f ∈ bodies, f.kind = .functionBody) ∧
        ∀ f ∈ skips, f = .skip) ∧
      (s.scopes.context = .classBody → ∃ c, s.scopes.head? = some (.classBody c)) ∧
      (∀ inner opened outer, s.scopes = inner ++ .linkage opened :: outer →
        ∀ f ∈ outer, f.class? = none)) ∧
    ∀ c ∈ (parse source).callbacks, c.event.isStructural = true →
      (∃ f ∈ c.scopes, f.kind = .functionBody ∨ f.kind = .skip) →
      ∃ item, c.event = .define item := by
  refine ⟨fun s hs => ?_, fun c hc hk hf => ?_⟩
  · have h := layered_of_reachable hs
    refine ⟨?_, head_of_classBody h, fun inner opened outer heq f hf => ?_⟩
    · obtain ⟨skips, bodies, classes, outer, heq, h3, ⟨h2', h2⟩, h1, h0⟩ := runs_of_layered h
      refine ⟨outer.reverse, classes.reverse, bodies.reverse, skips.reverse, by simp [heq],
        fun f hf => layer_eq_zero (h0 f (List.mem_reverse.mp hf)),
        fun f hf => layer_eq_one (h1 f (List.mem_reverse.mp hf)), by simpa using h2',
        fun f hf => layer_eq_two (h2 f (List.mem_reverse.mp hf)), fun f hf => ?_⟩
      have := h3 f (List.mem_reverse.mp hf)
      cases f <;> simp [Frame.layer] at this ⊢
    · rw [heq] at h
      have h := (layered_cons.mp (layered_of_suffix h (List.suffix_append _ _))).1 f hf
      cases f <;> simp [Frame.layer, Frame.class?] at h ⊢
  · obtain ⟨fs, hm, -⟩ := parse_moves source
    refine (layered_moves hm layered_nil).2 c.event c.scopes (mem_calls hc hk) ?_
    obtain ⟨f, hf, hfk⟩ := hf
    refine ⟨f, hf, ?_⟩
    cases f with
    | functionBody | skip => simp [Frame.layer]
    | nameSpace | linkage => simp [Frame.kind] at hfk
    | classBody c => simp only [Frame.kind] at hfk; split at hfk <;> simp at hfk

end HeaderOutline
