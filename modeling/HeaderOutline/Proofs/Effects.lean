import HeaderOutline.Outline.Collect
import HeaderOutline.Proofs.OwnBraces
/-!
# What a match does to the scopes

A move tells what a dispatch does to the scopes by what it reports. Here it is told by what it
matches: the construct and the scopes before settle the scopes behind. Heads are pushed, an opening
brace opens the head on top or is skipped, a closing brace takes the heads on top away and the
opened frame below them, a label sets the access of the class on top, and nothing else touches the
scopes.

Results:
* `effect_of_next`: every dispatch has the effect of its match.
* `Effect.keeps_below`: what lies below a frame stays as it is for as long as the frame stands.
* `Effect.frame`, `Effect.pushed`, `Effect.openedAt`: where a frame comes from, and how the one on
  top changes.
* `Move.scopes_of_isConstruct`: constructs show the scopes before their dispatch.
-/
namespace HeaderOutline

def Construct.head? : Construct → Option Frame
  | .linkage true => some (.linkage false)
  | .nameSpace name => some (.nameSpace name false)
  | .classHead h => some (.classBody (.ofHead h.name h.key h.template))
  | .function f false => some (.functionBody f.name false)
  | .constructor c false => some (.functionBody c.name false)
  | .destructor name false => some (.functionBody name false)
  | _ => none

/-- The construct leaves the scopes. -/
def Construct.isIdle : Construct → Bool
  | .define .. | .directive | .linkage false | .enumHead | .statement => true
  | .function _ true | .constructor _ true | .destructor _ true => true
  | _ => false

/-- What a dispatch that matches `m` makes of the scopes. -/
inductive Effect (fs : ScopeStack) : Option Construct → ScopeStack → Prop
  | stay {m : Option Construct} : (∀ k ∈ m, k.isIdle = true) → Effect fs m fs
  | push {k : Construct} {f : Frame} : k.head? = some f → Effect fs (some k) (f :: fs)
  | access (level : AccessLevel) : Effect fs (some (.access level)) (fs.setAccess level)
  | skip : (∀ f ∈ fs.head?, f.isOpened = true) → Effect fs (some .openBrace) (.skip :: fs)
  | opens {f : Frame} {gs : ScopeStack} : fs = f :: gs → f.isOpened = false →
      Effect fs (some .openBrace) (f.opening :: gs)
  | closes {hs gs : ScopeStack} {f : Frame} : fs = hs ++ f :: gs →
      (∀ h ∈ hs, h.isOpened = false) → f.isOpened = true → Effect fs (some .closeBrace) gs

theorem Construct.isOpened_of_head? {k : Construct} {f : Frame} (h : k.head? = some f) :
    f.isOpened = false := by
  cases k with
  | linkage block =>
    cases block
    · cases h
    · cases h; rfl
  | function _ block | constructor _ block | destructor _ block =>
    cases block
    · cases h; rfl
    · cases h
  | nameSpace | classHead => cases h; rfl
  | _ => cases h

theorem Construct.head?_of_isIdle {k : Construct} (h : k.isIdle = true) : k.head? = none := by
  cases k with
  | linkage block | function _ block | constructor _ block | destructor _ block =>
    cases block <;> first | rfl | cases h
  | _ => first | rfl | cases h

/-! ## Every dispatch has the effect of its match -/

namespace State

def matched? (s : State) : Option Construct :=
  s.pending.head?.bind fun line => (matchIn? s.scopes line.text).map (·.2.1)

variable {s t : State} {line : SourceLine} {later : List SourceLine} {es : List Entry}

theorem matched?_eq (hp : s.pending = line :: later) :
    s.matched? = (matchIn? s.scopes line.text).map (·.2.1) := by
  simp [matched?, hp]

theorem next?_of_step (hp : s.pending = line :: later) (h : s.step line later = (es, .ok t)) :
    s.next? = some t := by
  simp [next?, hp, h, Except.toOption]

theorem effect_openBrace (s : State) :
    Effect s.scopes (some .openBrace) s.openBrace.2.scopes := by
  unfold openBrace
  split
  · next h => exact .skip (by simp [h])
  · next f fs h =>
    split
    · next ho => exact .skip (by simpa [h] using ho)
    · next ho => exact .opens h (Bool.eq_false_iff.mpr ho)

theorem effect_closeBrace {number : Nat} (h : s.closeBrace number = (es, .ok t)) :
    Effect s.scopes (some .closeBrace) t.scopes := by
  have hsplit := List.takeWhile_append_dropWhile (p := fun f : Frame => !f.isOpened) (l := s.scopes)
  unfold closeBrace at h
  simp only at h
  split at h
  · cases h
  · next f fs hd =>
    cases h
    rw [hd] at hsplit
    have hf : f.isOpened = true := by
      have := List.head?_dropWhile_not (fun f : Frame => !f.isOpened) s.scopes
      simpa [hd] using this
    exact .closes hsplit.symm (fun g hg => by simpa using List.mem_takeWhile_imp hg) hf

theorem effect_perform {k : Construct} (he : k ≠ .closeBrace) :
    Effect s.scopes (some k) (s.perform k).2.scopes := by
  have idle : k.isIdle = true → Effect s.scopes (some k) s.scopes := fun hk =>
    .stay fun j hj => by cases hj; exact hk
  cases k with
  | openBrace => exact effect_openBrace s
  | closeBrace => exact absurd rfl he
  | access level => exact .access level
  | nameSpace | classHead => exact .push rfl
  | linkage block | function _ block | constructor _ block | destructor _ block =>
    cases block <;> first | exact idle rfl | exact .push rfl
  | define | directive | enumHead | statement => exact idle rfl

theorem effect_act {rest : List Char} {k : Construct} (h : s.act line rest k = (es, .ok t)) :
    Effect s.scopes (some k) t.scopes := by
  rcases act_cases h with ⟨rfl, hr⟩ | ⟨rfl, fs, u, hc, -, rfl⟩ | ⟨-, hk, -, rfl⟩
  · have hscopes : (s.readEnum line).2.scopes = s.scopes := by
      unfold readEnum
      simp only
      split <;> rfl
    rw [hr] at hscopes
    rw [hscopes]
    exact .stay fun j hj => by cases hj; rfl
  · exact (effect_closeBrace hc :)
  · exact effect_perform hk

/-- Every dispatch has the effect of its match. -/
theorem effect_of_next (h : s.next? = some t) : Effect s.scopes s.matched? t.scopes := by
  obtain ⟨line, later, es, hp, hs⟩ := exists_step_of_next? h
  rw [matched?_eq hp]
  rcases step_cases hs with ⟨hm, hsame, -⟩ | ⟨rule, k, rest, hm, -, u, fs, hu, ha⟩
  · rw [hm, hsame]
    exact .stay fun k hk => by cases hk
  · rw [hm, ← hu]
    exact effect_act ha

end State

/-! ## Frames along effects -/

section

variable {fs gs base below : ScopeStack} {m : Option Construct} {f : Frame}

theorem ScopeStack.setAccess_cons (level : AccessLevel) (f : Frame) (fs : ScopeStack) :
    ∃ g, ScopeStack.setAccess level (f :: fs) = g :: fs ∧ g.isOpened = f.isOpened := by
  cases f <;> exact ⟨_, rfl, rfl⟩

theorem suffix_tail {f : Frame} (h : base <:+ f :: fs) (hlt : base.length < (f :: fs).length) :
    base <:+ fs := by
  rcases List.suffix_cons_iff.mp h with heq | h
  · rw [heq] at hlt
    exact absurd hlt (Nat.lt_irrefl _)
  · exact h

/-- What lies below a frame stays as it is for as long as the frame is not taken away. -/
theorem Effect.keeps_below (h : Effect fs m gs) (hb : base <:+ fs) (hlt : base.length < fs.length)
    (hle : base.length ≤ gs.length) : base <:+ gs := by
  cases h with
  | stay => exact hb
  | push | skip => exact hb.trans (List.suffix_cons ..)
  | access level =>
    cases fs with
    | nil => exact hb
    | cons f fs =>
      obtain ⟨g, hg, -⟩ := ScopeStack.setAccess_cons level f fs
      rw [hg]
      exact (suffix_tail hb hlt).trans (List.suffix_cons ..)
  | opens heq =>
    subst heq
    exact (suffix_tail hb hlt).trans (List.suffix_cons ..)
  | closes heq =>
    subst heq
    exact List.suffix_of_suffix_length_le hb
      ((List.suffix_cons ..).trans (List.suffix_append ..)) hle

/-- A frame has been pushed, or it was there and is as it was, or it is on top and an opening brace
opens it or a label sets its access. -/
theorem Effect.frame (h : Effect fs m gs) (hf : f :: below <:+ gs) :
    (below = fs ∧ (m.bind Construct.head? = some f ∨ f = .skip)) ∨
      ∃ g, g :: below <:+ fs ∧ ((f = g ∧ (fs = g :: below → ∀ level, m ≠ some (.access level))) ∨
        fs = g :: below ∧ (m = some .openBrace ∧ f = g.opening ∨
          ∃ level, m = some (.access level) ∧ f :: below = ScopeStack.setAccess level fs)) := by
  cases h with
  | stay hm =>
    refine .inr ⟨f, hf, .inl ⟨rfl, fun _ level hl => ?_⟩⟩
    exact absurd (hm _ hl) (by simp [Construct.isIdle])
  | @push k g hk =>
    rcases List.suffix_cons_iff.mp hf with heq | hf
    · obtain ⟨rfl, rfl⟩ := List.cons.inj heq
      exact .inl ⟨rfl, .inl hk⟩
    · refine .inr ⟨f, hf, .inl ⟨rfl, fun _ level hl => ?_⟩⟩
      cases hl
      cases hk
  | skip =>
    rcases List.suffix_cons_iff.mp hf with heq | hf
    · obtain ⟨rfl, rfl⟩ := List.cons.inj heq
      exact .inl ⟨rfl, .inr rfl⟩
    · exact .inr ⟨f, hf, .inl ⟨rfl, fun _ _ hl => by cases hl⟩⟩
  | access level =>
    cases fs with
    | nil => exact absurd (List.suffix_nil.mp hf) (by simp)
    | cons g fs =>
      obtain ⟨g', hg, -⟩ := ScopeStack.setAccess_cons level g fs
      rw [hg] at hf
      rcases List.suffix_cons_iff.mp hf with heq | hf
      · obtain ⟨rfl, rfl⟩ := List.cons.inj heq
        exact .inr ⟨g, List.suffix_refl _, .inr ⟨rfl, .inr ⟨level, rfl, hg.symm⟩⟩⟩
      · refine .inr ⟨f, hf.trans (List.suffix_cons ..), .inl ⟨rfl, fun heq => ?_⟩⟩
        -- A frame below the top is not the whole stack.
        have hlen := hf.length_le
        rw [(List.cons.inj heq).2, List.length_cons] at hlen
        omega
  | @opens g gs heq _ =>
    subst heq
    rcases List.suffix_cons_iff.mp hf with heq | hf
    · obtain ⟨rfl, rfl⟩ := List.cons.inj heq
      exact .inr ⟨g, List.suffix_refl _, .inr ⟨rfl, .inl ⟨rfl, rfl⟩⟩⟩
    · exact .inr ⟨f, hf.trans (List.suffix_cons ..), .inl ⟨rfl, fun _ _ hl => by cases hl⟩⟩
  | closes heq =>
    subst heq
    exact .inr ⟨f, hf.trans ((List.suffix_cons ..).trans (List.suffix_append ..)),
      .inl ⟨rfl, fun _ _ hl => by cases hl⟩⟩

theorem Effect.eq_cons_of_head? (h : Effect fs m gs) (hf : m.bind Construct.head? = some f) :
    gs = f :: fs := by
  cases h with
  | @stay m hm =>
    obtain ⟨k, rfl, hk⟩ := Option.bind_eq_some_iff.mp hf
    rw [Construct.head?_of_isIdle (hm k rfl)] at hk
    cases hk
  | push hk =>
    obtain rfl := Option.some.inj (hk.symm.trans hf)
    rfl
  | _ => cases hf

/-- What is pushed is a head that is matched, or a skipped brace. -/
theorem Effect.pushed (h : Effect fs m gs) (hlt : fs.length < gs.length) :
    (∃ f, m.bind Construct.head? = some f ∧ gs = f :: fs) ∨ gs = .skip :: fs := by
  cases h with
  | push hk => exact .inl ⟨_, hk, rfl⟩
  | skip => exact .inr rfl
  | stay => exact absurd hlt (Nat.lt_irrefl _)
  | access level =>
    cases fs with
    | nil => exact absurd hlt (Nat.lt_irrefl _)
    | cons f fs =>
      obtain ⟨g, hg, -⟩ := ScopeStack.setAccess_cons level f fs
      rw [hg] at hlt
      exact absurd hlt (Nat.lt_irrefl _)
  | opens heq =>
    subst heq
    exact absurd hlt (Nat.lt_irrefl _)
  | closes heq =>
    subst heq
    simp only [List.length_append, List.length_cons] at hlt
    omega

/-- A frame is opened where it stands only on top, by an opening brace. -/
theorem Effect.openedAt {n : Nat} (h : Effect fs m gs) (hn : n ≤ fs.length)
    (ho : OpenedAt n gs) :
    OpenedAt n fs ∨ ∃ f below, fs = f :: below ∧ fs.length = n ∧ f.isOpened = false ∧
      gs = f.opening :: below := by
  obtain ⟨f, hs, hsuffix, hlength, hf⟩ := ho
  cases h with
  | stay => exact .inl ⟨f, hs, hsuffix, hlength, hf⟩
  | push | skip =>
    rcases List.suffix_cons_iff.mp hsuffix with heq | hsuffix
    · rw [(List.cons.inj heq).2] at hlength
      omega
    · exact .inl ⟨f, hs, hsuffix, hlength, hf⟩
  | access level =>
    cases fs with
    | nil => exact .inl ⟨f, hs, hsuffix, hlength, hf⟩
    | cons g fs =>
      obtain ⟨g', hg, hsame⟩ := ScopeStack.setAccess_cons level g fs
      rw [hg] at hsuffix
      rcases List.suffix_cons_iff.mp hsuffix with heq | hsuffix
      · obtain ⟨rfl, rfl⟩ := List.cons.inj heq
        exact .inl ⟨g, hs, List.suffix_refl _, hlength, hsame ▸ hf⟩
      · exact .inl ⟨f, hs, hsuffix.trans (List.suffix_cons ..), hlength, hf⟩
  | @opens g gs heq hg =>
    subst heq
    rcases List.suffix_cons_iff.mp hsuffix with heq | hsuffix
    · rw [(List.cons.inj heq).2] at hlength
      exact .inr ⟨g, gs, rfl, hlength, hg, rfl⟩
    · exact .inl ⟨f, hs, hsuffix.trans (List.suffix_cons ..), hlength, hf⟩
  | closes heq =>
    subst heq
    exact .inl ⟨f, hs, hsuffix.trans ((List.suffix_cons ..).trans (List.suffix_append ..)),
      hlength, hf⟩

/-- The stack grows by one frame at most. -/
theorem Effect.length_le (h : Effect fs m gs) : gs.length ≤ fs.length + 1 := by
  cases h with
  | stay => omega
  | push | skip => simp
  | access level =>
    cases fs with
    | nil => simp [ScopeStack.setAccess]
    | cons f fs =>
      obtain ⟨g, hg, -⟩ := ScopeStack.setAccess_cons level f fs
      simp [hg]
  | opens heq => simp [heq]
  | closes heq => simp [heq]; omega

/-- Only a closing brace takes frames away. -/
theorem Effect.eq_closeBrace (h : Effect fs m gs) (hlt : gs.length < fs.length) :
    m = some .closeBrace := by
  cases h with
  | closes => rfl
  | stay => omega
  | push | skip => rw [List.length_cons] at hlt; omega
  | access level =>
    cases fs with
    | nil => simp at hlt
    | cons f fs =>
      obtain ⟨g, hg, -⟩ := ScopeStack.setAccess_cons level f fs
      simp [hg] at hlt
  | opens heq => simp [heq] at hlt

end

/-! ## Constructs and the scopes they show -/

/-- A dispatch makes at most one call. -/
theorem Move.calls_cases {fs gs : ScopeStack} {cs : List Call} (h : Move fs cs gs) :
    cs = [] ∨ ∃ c, cs = [c] := by
  cases h with
  | stay | access | linkage | skips => exact .inl rfl
  | define | plain | nameSpace | classHead | body => exact .inr ⟨_, rfl⟩
  | @opens f =>
    cases State.startEvent? f with
    | none => exact .inl rfl
    | some e => exact .inr ⟨_, rfl⟩
  | @closes _ f =>
    cases State.endEvent? f with
    | none => exact .inl rfl
    | some e => exact .inr ⟨_, rfl⟩

theorem isConstruct_of_startEvent? {f : Frame} {e : Event} (h : State.startEvent? f = some e) :
    e.isConstruct = false := by
  cases f <;> cases h <;> rfl

theorem isConstruct_of_endEvent? {f : Frame} {e : Event} (h : State.endEvent? f = some e) :
    e.isConstruct = false := by
  cases f <;> cases h <;> rfl

/-- A construct is reported with the scopes as they stand before its dispatch. -/
theorem Move.scopes_of_isConstruct {fs gs : ScopeStack} {cs : List Call} {call : Call}
    (h : Move fs cs gs) (hc : call ∈ cs) (hk : call.1.isConstruct = true) : call.2 = fs := by
  cases h with
  | stay | access | linkage | skips => cases hc
  | define | plain | nameSpace | classHead | body =>
    exact congrArg Prod.snd (List.mem_singleton.mp hc)
  | opens =>
    obtain ⟨e, he, rfl⟩ := List.mem_map.mp hc
    rw [isConstruct_of_startEvent? (Option.mem_toList.mp he)] at hk
    cases hk
  | closes =>
    obtain ⟨e, he, rfl⟩ := List.mem_map.mp hc
    rw [isConstruct_of_endEvent? (Option.mem_toList.mp he)] at hk
    cases hk

end HeaderOutline
