import HeaderOutline.Proofs.Effects
import HeaderOutline.Proofs.LineAttribution
import HeaderOutline.Proofs.OutlineIntegrity
/-!
# The access of members

The access that applies to the next member is kept in the frame of its class, and a label changes
the frame on top only. So the access that a class frame shows is told by the labels that were
matched while the frame stood and nothing stood above it (`Labelled`): the last of them, or the
default of its key without any. A dispatch that leaves the frame standing changes it by a label or
by its brace when it is on top, and not at all otherwise (`frame_of_next`).

Frames below the top do not change, so when what was read inside a frame is closed, the stack is as
it was before that frame was pushed, with the access of the classes below it.

Results:
* `exists_headSince`: every class frame was pushed by a head.
* `HeadSince.classSince`: what the frame shows since then.
* `Effect.closed`: what a closing brace leaves of the scopes when it closes the frame of a level.
* `access_of_innermost`: the access that the members of an outline are recorded with.
-/
namespace HeaderOutline

namespace State

variable {s t u v : State} {n : Nat} {ks : List Construct} {base : ScopeStack}

/-! ## Labels at a level -/

/-- The label that the next dispatch matches, when the frame at the level `n` is on top. -/
def labelAt? (n : Nat) (s : State) : Option AccessLevel :=
  if s.scopes.length = n then
    match s.matched? with
    | some (.access level) => some level
    | _ => none
  else none

/-- Steps along which the frame at the level `n` stands, and the labels that are matched while it is
on top. -/
inductive Labelled (n : Nat) : State → List AccessLevel → State → Prop
  | refl {s : State} : n ≤ s.scopes.length → Labelled n s [] s
  | next {s t u : State} {ls : List AccessLevel} : n ≤ s.scopes.length → s.next? = some t →
      Labelled n t ls u → Labelled n s ((s.labelAt? n).toList ++ ls) u

theorem Labelled.snoc {ls : List AccessLevel} (h : Labelled n s ls u) (hnext : u.next? = some v)
    (hn : n ≤ v.scopes.length) : Labelled n s (ls ++ (u.labelAt? n).toList) v := by
  induction h with
  | refl hs => simpa using Labelled.next hs hnext (.refl hn)
  | next hs hnext' _ ih => simpa only [List.append_assoc] using Labelled.next hs hnext' (ih hnext)

theorem Labelled.le_length {ls : List AccessLevel} (h : Labelled n s ls u) :
    n ≤ s.scopes.length := by
  cases h <;> assumption

theorem labelAt?_eq_none
    (h : s.scopes.length = n → ∀ level, s.matched? ≠ some (.access level)) :
    s.labelAt? n = none := by
  unfold labelAt?
  split
  · next hlength =>
    split
    · next level hm => exact absurd hm (h hlength level)
    · rfl
  · rfl

theorem labelAt?_eq_some {level : AccessLevel} (hlength : s.scopes.length = n)
    (hm : s.matched? = some (.access level)) : s.labelAt? n = some level := by
  simp [labelAt?, hlength, hm]

end State

open State

/-! ## Where the access of a frame comes from -/

/-- The head of a class was read in the state `p`, with the scopes `below` around it. Its frame
stands up to the state `s`, and `labels` are those that were matched while it was on top. -/
structure HeadSince (source : String) (below : ScopeStack) (s p : State)
    (head : Declaration.ClassHead) (labels : List AccessLevel) : Prop where
  reachable : Reachable source p
  matched : p.matched? = some (.classHead head)
  around : p.scopes = below
  labelled : ∃ t, p.next? = some t ∧
    t.scopes = .classBody (.ofHead head.name head.key head.template) :: below ∧
    Labelled (below.length + 1) t labels s

/-- The frame of the class `c` shows its head, and the labels since then. -/
structure ClassSince (source : String) (below : ScopeStack) (c : ClassBody) (s p : State)
    (head : Declaration.ClassHead) (labels : List AccessLevel) : Prop
    extends HeadSince source below s p head labels where
  name : c.name = head.name
  key : c.key = head.key
  template : c.template = head.template
  access : c.access = labels.getLast?.getD head.key.defaultAccess

section

variable {source : String} {s t u v p : State} {below base : ScopeStack} {c b : ClassBody}
  {head : Declaration.ClassHead} {labels : List AccessLevel} {n : Nat} {ks : List Construct}

theorem exists_cons_suffix {fs : ScopeStack} (h : base <:+ fs) (hlt : base.length < fs.length) :
    ∃ f, f :: base <:+ fs := by
  obtain ⟨xs, rfl⟩ := h
  rcases List.eq_nil_or_concat xs with rfl | ⟨ys, f, rfl⟩
  · exact absurd hlt (Nat.lt_irrefl _)
  · exact ⟨f, ys, by simp⟩

/-- A class frame that stays after a dispatch is that of the same class, and a label that is matched
on top of it sets its access. -/
theorem frame_of_next (hnext : s.next? = some t) (hc : .classBody c :: below <:+ s.scopes)
    (hn : below.length + 1 ≤ t.scopes.length) :
    ∃ b, .classBody b :: below <:+ t.scopes ∧ b.name = c.name ∧ b.key = c.key ∧
      b.template = c.template ∧ b.access = (s.labelAt? (below.length + 1)).getD c.access := by
  have heffect := effect_of_next hnext
  have hlength : below.length < s.scopes.length := hc.length_le
  have hbelow := heffect.keeps_below ((List.suffix_cons ..).trans hc) hlength (by omega)
  obtain ⟨f, hf⟩ := exists_cons_suffix hbelow hn
  have same : ∀ {g : Frame}, g :: below <:+ s.scopes → g = .classBody c := fun hg =>
    (List.cons.inj ((List.suffix_of_suffix_length_le hg hc (Nat.le_refl _)).eq_of_length rfl)).1
  rcases heffect.frame hf with ⟨rfl, -⟩ | ⟨g, hg, ⟨rfl, hstay⟩ |
    ⟨htop, ⟨hbrace, rfl⟩ | ⟨level, haccess, hset⟩⟩⟩
  · exact absurd hlength (Nat.lt_irrefl _)
  · -- The frame is as it was.
    obtain rfl := same hg
    have hlabel : s.labelAt? (below.length + 1) = none :=
      labelAt?_eq_none fun heq => hstay (hg.eq_of_length heq.symm).symm
    exact ⟨c, hf, rfl, rfl, rfl, by rw [hlabel]; rfl⟩
  · -- The frame is opened.
    obtain rfl := same hg
    have hlabel : s.labelAt? (below.length + 1) = none :=
      labelAt?_eq_none fun _ level => by rw [hbrace]; simp
    exact ⟨{ c with opened := true }, hf, rfl, rfl, rfl, by rw [hlabel]; rfl⟩
  · -- A label sets the access of the frame.
    obtain rfl := same hg
    have hlabel : s.labelAt? (below.length + 1) = some level :=
      labelAt?_eq_some (by rw [htop]; rfl) haccess
    rw [htop] at hset
    obtain ⟨rfl, -⟩ := List.cons.inj hset
    exact ⟨{ c with access := level }, hf, rfl, rfl, rfl, by rw [hlabel]; rfl⟩

/-- While a class frame stands, the labels on top of it tell its access. -/
theorem State.Labelled.frame (h : Labelled n t labels s)
    (hc : .classBody c :: below <:+ t.scopes) (hn : n = below.length + 1) :
    ∃ b, .classBody b :: below <:+ s.scopes ∧ b.name = c.name ∧ b.key = c.key ∧
      b.template = c.template ∧ b.access = labels.getLast?.getD c.access := by
  induction h generalizing c with
  | refl => exact ⟨c, hc, rfl, rfl, rfl, rfl⟩
  | @next s t u ls hs hnext hrest ih =>
    subst hn
    obtain ⟨a, ha, hname, hkey, htemplate, haccess⟩ := frame_of_next hnext hc hrest.le_length
    obtain ⟨b, hb, hname', hkey', htemplate', haccess'⟩ := ih ha
    refine ⟨b, hb, hname'.trans hname, hkey'.trans hkey, htemplate'.trans htemplate, ?_⟩
    rw [haccess', haccess, List.getLast?_append]
    cases ls.getLast? <;> cases s.labelAt? (below.length + 1) <;> rfl

/-- The frame at the level of a head shows the head and the labels since then. -/
theorem HeadSince.classSince (h : HeadSince source below s p head labels)
    (hc : .classBody c :: below <:+ s.scopes) : ClassSince source below c s p head labels := by
  obtain ⟨t, -, ht, hlabelled⟩ := h.labelled
  obtain ⟨b, hb, hname, hkey, htemplate, haccess⟩ := hlabelled.frame ⟨[], ht.symm⟩ rfl
  have hsame := (List.suffix_of_suffix_length_le hb hc (Nat.le_refl _)).eq_of_length rfl
  cases hsame
  exact { h with name := hname, key := hkey, template := htemplate, access := haccess }

theorem HeadSince.next (h : HeadSince source below s p head labels) (hnext : s.next? = some t)
    (hn : below.length + 1 ≤ t.scopes.length) :
    HeadSince source below t p head (labels ++ (s.labelAt? (below.length + 1)).toList) := by
  obtain ⟨q, hq, hpush, hlabelled⟩ := h.labelled
  exact { h with labelled := ⟨q, hq, hpush, hlabelled.snoc hnext hn⟩ }

/-- For every class frame in a state its head has been read. -/
theorem exists_headSince (hs : Reachable source s) (hc : .classBody c :: below <:+ s.scopes) :
    ∃ p head labels, HeadSince source below s p head labels := by
  obtain ⟨es, hr⟩ := hs
  revert c below
  refine hr.invariant (p := fun s => ∀ {below : ScopeStack} {c : ClassBody},
    .classBody c :: below <:+ s.scopes → ∃ p head labels, HeadSince source below s p head labels)
    (fun hc => by cases List.suffix_nil.mp hc) ?_
  intro s t line later fs gs hr hp hs ih below c hc
  have hnext := next?_of_step hp hs
  have hlength : below.length + 1 ≤ t.scopes.length := hc.length_le
  have older : ∀ {b : ClassBody}, .classBody b :: below <:+ s.scopes →
      ∃ p head labels, HeadSince source below t p head labels := fun hb =>
    let ⟨p, head, labels, h⟩ := ih hb
    ⟨p, head, _, h.next hnext hlength⟩
  rcases (effect_of_next hnext).frame hc with ⟨rfl, hpush | hskip⟩ | ⟨g, hg, ⟨rfl, -⟩ |
    ⟨htop, ⟨-, hopen⟩ | ⟨level, -, hset⟩⟩⟩
  · -- The frame has just been pushed.
    obtain ⟨k, hk, hhead⟩ := Option.bind_eq_some_iff.mp hpush
    cases k with
    | classHead head =>
      cases hhead
      have ht := (effect_of_next hnext).eq_cons_of_head? hpush
      exact ⟨s, head, [], ⟨fs, hr⟩, hk, rfl, t, hnext, ht, .refl hlength⟩
    | linkage block | function _ block | constructor _ block | destructor _ block =>
      cases block <;> cases hhead
    | _ => cases hhead
  · cases hskip
  · exact older hg
  · -- What an opening brace makes a class frame of was one.
    cases g with
    | classBody b => exact older hg
    | _ => cases hopen
  · -- So was what a label makes one of.
    rw [htop] at hset
    cases g with
    | classBody b => exact older hg
    | _ => cases hset

/-! ## What a frame leaves behind -/

/-- What lies below a level stays as it is for as long as the level stands. -/
theorem State.Waits.keeps_below (h : Waits n s ks u) (hb : base <:+ s.scopes)
    (hlt : base.length < n) : base <:+ u.scopes := by
  induction h with
  | refl => exact hb
  | next hn _ _ hnext hw ih =>
    exact ih ((effect_of_next hnext).keeps_below hb (hlt.trans_le hn)
      (hlt.le.trans hw.le_length))

/-- What takes an opened frame away closes it, and leaves what lies below. -/
theorem Effect.closed {fs gs : ScopeStack} {m : Option Construct} (h : Effect fs m gs)
    (hb : base <:+ fs) (ho : OpenedAt (base.length + 1) fs) (hlt : gs.length ≤ base.length) :
    gs = base := by
  obtain ⟨f, bs, hsuffix, hlength, hf⟩ := ho
  have hle := hsuffix.length_le
  rw [List.length_cons, hlength] at hle
  obtain rfl := h.eq_closeBrace (by omega)
  cases h with
  | stay hm => cases hm _ rfl
  | push hk => cases hk
  | @closes hs gs g heq hunopened hg =>
    subst heq
    have hgs : g :: gs <:+ hs ++ g :: gs := List.suffix_append ..
    rcases Nat.lt_or_ge gs.length bs.length with hshort | hlong
    · -- Then the opened frame would be one of the heads that are given up.
      obtain ⟨xs, rfl⟩ := List.suffix_of_suffix_length_le hgs
        ((List.suffix_cons f bs).trans hsuffix) hshort
      obtain ⟨ys, hys⟩ := hsuffix
      rw [← List.cons_append, ← List.append_assoc] at hys
      have hmem : f ∈ hs := List.append_cancel_right hys ▸ by simp
      rw [hunopened f hmem] at hf
      cases hf
    · have hsame := List.suffix_of_suffix_length_le ((List.suffix_cons g gs).trans hgs) hb hlt
      exact hsame.eq_of_length (by omega)

end

/-! ## Runs of some length -/

namespace State

/-- The state after `k` dispatches, or after the last one that succeeds. -/
def later : Nat → State → State
  | 0, s => s
  | k + 1, s => (s.next?.getD s).later k

/-- There are `k` dispatches to come, and a frame stands at the level `n` along them. -/
def stands (n : Nat) : Nat → State → Bool
  | 0, s => n ≤ s.scopes.length
  | k + 1, s => n ≤ s.scopes.length && s.next?.any (stands n k)

/-- The labels that the next `k` dispatches match on top of the level `n`. -/
def labelsAlong (n : Nat) : Nat → State → List AccessLevel
  | 0, _ => []
  | k + 1, s => (s.labelAt? n).toList ++ labelsAlong n k (s.next?.getD s)

def reported (s : State) : List Callback :=
  match s.pending with
  | [] => []
  | line :: later => callbacksOf (s.step line later).1

theorem labelled_later {k : Nat} (h : s.stands n k = true) :
    Labelled n s (s.labelsAlong n k) (s.later k) := by
  induction k generalizing s with
  | zero => exact .refl (of_decide_eq_true h)
  | succ k ih =>
    rw [stands, Bool.and_eq_true, decide_eq_true_eq] at h
    obtain ⟨hn, hany⟩ := h
    cases hnext : s.next? with
    | none => rw [hnext] at hany; cases hany
    | some t =>
      rw [hnext, Option.any_some] at hany
      have hrest := Labelled.next hn hnext (ih hany)
      rw [later, labelsAlong, hnext, Option.getD_some]
      exact hrest

theorem Labelled.reachable {source : String} {ls : List AccessLevel} (h : Labelled n s ls u)
    (hs : Reachable source s) : Reachable source u := by
  induction h with
  | refl => exact hs
  | next _ hnext _ ih =>
    obtain ⟨line, later, es, hp, hstep⟩ := exists_step_of_next? hnext
    obtain ⟨fs, hr⟩ := hs
    exact ih ⟨fs ++ es, hr.trans (.one hp hstep)⟩

theorem exists_reports {source : String} {c : Callback} (hs : Reachable source s)
    (hnext : s.next?.isSome = true) (hc : c ∈ s.reported) :
    ∃ line later, Reports source s line later c := by
  obtain ⟨t, ht⟩ := Option.isSome_iff_exists.mp hnext
  obtain ⟨line, later, es, hp, hstep⟩ := exists_step_of_next? ht
  rw [reported, hp] at hc
  simp only [hstep] at hc
  exact ⟨line, later, hs, hp, es, t, hstep, hc⟩

end State

/-! ## Members -/

theorem scopes_of_reports {source : String} {s : State} {line : SourceLine}
    {later : List SourceLine} {c : Callback} (h : Reports source s line later c)
    (hk : c.event.isConstruct = true) : c.scopes = s.scopes := by
  obtain ⟨es, t, hs, hc⟩ := h.reported
  exact (move_step hs).scopes_of_isConstruct
    (mem_calls_of_mem_callbacksOf hc (Event.isStructural_of_isConstruct hk)) hk

theorem access?_of_classBody {c : Callback} {body : ClassBody} {below : ScopeStack}
    (h : c.scopes = .classBody body :: below) : c.access? = some body.access := by
  simp [Callback.access?, h, ScopeStack.innermostClass?, ScopeStack.classes, Frame.class?]

/-- A construct that is reported in a class shows the frame of that class on top. The frame was
pushed by the dispatch of a head, and of the labels that were matched since then while it was on
top, the last one is the access that the construct is recorded with; without any it is the default
of the key, private for a class and public for a struct. Every construct is reported by some
dispatch. When what was read inside a frame is closed, the scopes are those before that frame, with
the access of each class as it was. -/
theorem access_of_innermost (source : String) :
    (ClassKey.isClass.defaultAccess = .isPrivate ∧ ClassKey.isStruct.defaultAccess = .isPublic) ∧
    (∀ c ∈ (parse source).callbacks, c.event.isConstruct = true →
      ∃ s line later, Reports source s line later c) ∧
    (∀ s line later c, Reports source s line later c → c.event.isConstruct = true →
      c.scopes.context = .classBody →
      ∃ body below, c.scopes = .classBody body :: below ∧ s.scopes = c.scopes ∧
        (∃ p head labels, HeadSince source below s p head labels) ∧
        ∀ p head labels, HeadSince source below s p head labels →
          ClassSince source below body s p head labels ∧
          (∀ f, c.function? = some f →
            f.access = some (labels.getLast?.getD head.key.defaultAccess)) ∧
          ∀ i, c.class? = some i →
            i.declaredAccess = some (labels.getLast?.getD head.key.defaultAccess)) ∧
    ∀ s t f ks u, Reachable source s → s.next? = some t → t.scopes = f :: s.scopes →
      Waits t.scopes.length t ks u → s.scopes <:+ u.scopes ∧
        ∀ v, u.next? = some v → v.scopes.length < t.scopes.length →
          OpenedAt t.scopes.length u.scopes → v.scopes = s.scopes := by
  refine ⟨⟨rfl, rfl⟩, fun c hc hk => ?reported, fun s line later c h hk hcontext => ?recorded,
    fun s t f ks u _ _ ht hw => ?resumed⟩
  case reported =>
    obtain ⟨s, line, later, es, t, hs, hp, hstep, hmem⟩ :=
      exists_step_of_mem_callbacks hc (Event.isStructural_of_isConstruct hk)
    exact ⟨s, line, later, hs, hp, es, t, hstep, hmem⟩
  case recorded =>
    have hscopes := scopes_of_reports h hk
    rw [hscopes] at hcontext
    obtain ⟨body, hbody⟩ := head_of_classBody (layered_of_reachable h.reachable) hcontext
    obtain ⟨below, htop⟩ := List.head?_eq_some_iff.mp hbody
    have hsuffix : .classBody body :: below <:+ s.scopes := ⟨[], htop.symm⟩
    refine ⟨body, below, hscopes.trans htop, hscopes.symm, exists_headSince h.reachable hsuffix,
      fun p head labels hsince => ?_⟩
    have hclass := hsince.classSince hsuffix
    have haccess := access?_of_classBody (hscopes.trans htop)
    rw [hclass.access] at haccess
    refine ⟨hclass, fun f hf => ?_, fun i hi => ?_⟩
    · exact (Callback.function?_eq_some hf).2.2.1.trans haccess
    · obtain ⟨_, -, rfl⟩ := Callback.class?_eq_some hi
      exact haccess
  case resumed =>
    have hlength : t.scopes.length = s.scopes.length + 1 := by rw [ht]; rfl
    have hbelow : s.scopes <:+ u.scopes :=
      hw.keeps_below (ht ▸ List.suffix_cons ..) (by omega)
    refine ⟨hbelow, fun v hnext hlt hopened => ?_⟩
    rw [hlength] at hopened hlt
    exact (effect_of_next hnext).closed hbelow hopened (Nat.le_of_lt_succ hlt)

/-- The dispatch `i` reads the head, `labels` are matched on top of its frame by the next `k`, and
the one behind these reports a member function of that name in the class. -/
def readsMember (source name : String) (head : Declaration.ClassHead) (labels : List AccessLevel)
    (i k : Nat) : Bool :=
  let p := (startOf source).later i
  let t := p.later 1
  let s := t.later k
  let n := p.scopes.length + 1
  (startOf source).stands 0 i && p.next?.isSome && p.matched? = some (.classHead head) &&
    t.scopes = .classBody (.ofHead head.name head.key head.template) :: p.scopes &&
    t.stands n k && t.labelsAlong n k = labels && s.scopes.tail = p.scopes && s.next?.isSome &&
    s.reported.any fun c => c.event.isConstruct && c.scopes.context = .classBody &&
      c.function?.any (·.signature.name = name)

theorem exists_of_readsMember {source name : String} {head : Declaration.ClassHead}
    {labels : List AccessLevel} {i k : Nat} (h : readsMember source name head labels i k = true) :
    ∃ s line later c p f, Reports source s line later c ∧ c.event.isConstruct = true ∧
      c.scopes.context = .classBody ∧ HeadSince source s.scopes.tail s p head labels ∧
      c.function? = some f ∧ f.signature.name = name := by
  simp only [readsMember, Bool.and_eq_true, decide_eq_true_eq, List.any_eq_true] at h
  obtain ⟨⟨⟨⟨⟨⟨⟨⟨hp, hpush⟩, hm⟩, ht⟩, hstands⟩, hlabels⟩, htail⟩, hnext⟩, c, hc, ⟨hk, hcontext⟩,
    hf⟩ := h
  generalize hs : (((startOf source).later i).later 1).later k = s at hlabels htail hnext hc
  have hlabelled := labelled_later hstands
  rw [hlabels, hs] at hlabelled
  have hreach : Reachable source ((startOf source).later i) :=
    (labelled_later hp).reachable ⟨[], .refl _⟩
  have hpushed : ((startOf source).later i).next? = some (((startOf source).later i).later 1) := by
    obtain ⟨t, hnextp⟩ := Option.isSome_iff_exists.mp hpush
    rw [later, later, hnextp, Option.getD_some]
  have hsince : HeadSince source s.scopes.tail s ((startOf source).later i) head labels :=
    htail ▸ ⟨hreach, hm, rfl, _, hpushed, ht, hlabelled⟩
  have hreach' : Reachable source s :=
    hlabelled.reachable ((Labelled.next (Nat.zero_le _) hpushed (.refl (Nat.zero_le _))).reachable
      hreach)
  obtain ⟨line, later, hreports⟩ := exists_reports hreach' hnext hc
  cases hfound : c.function? with
  | none => rw [hfound] at hf; cases hf
  | some f =>
    rw [hfound, Option.any_some, decide_eq_true_eq] at hf
    exact ⟨s, line, later, c, _, f, hreports, hk, hcontext, hsince, hfound, hf⟩

/-- A class and a struct inside it, each with members before and behind a label. -/
def nestedStruct : String :=
  "class A \x7b\nint f();\npublic:\nint g();\n" ++
    "struct B \x7b\nint h();\nprivate:\nint i();\n\x7d;\nint j();\n\x7d;\n"

/-- A member function of that name is recorded with the access `level`; `labels` have been matched
on top of the frame of its class since the head was read. -/
def RecordsMember (source name : String) (head : Declaration.ClassHead) (labels : List AccessLevel)
    (level : AccessLevel) : Prop :=
  ∃ s line later c p f, Reports source s line later c ∧
    HeadSince source s.scopes.tail s p head labels ∧ c.function? = some f ∧
    f.signature.name = name ∧ f.access = some level

/-- Without a label a member of the class is private and one of the struct public. With a label it
is as that says, and in the class still so behind the struct. -/
theorem access_of_innermost_nestedStruct :
    RecordsMember nestedStruct "f" ⟨none, .isClass, "A"⟩ [] .isPrivate ∧
    RecordsMember nestedStruct "g" ⟨none, .isClass, "A"⟩ [.isPublic] .isPublic ∧
    RecordsMember nestedStruct "h" ⟨none, .isStruct, "B"⟩ [] .isPublic ∧
    RecordsMember nestedStruct "i" ⟨none, .isStruct, "B"⟩ [.isPrivate] .isPrivate ∧
    RecordsMember nestedStruct "j" ⟨none, .isClass, "A"⟩ [.isPublic] .isPublic := by
  obtain ⟨⟨hclass, hstruct⟩, -, hrecorded, -⟩ := access_of_innermost nestedStruct
  have member : ∀ {name head labels level} (i k : Nat),
      readsMember nestedStruct name head labels i k = true →
      labels.getLast?.getD head.key.defaultAccess = level →
        RecordsMember nestedStruct name head labels level := fun i k h hlevel => by
    obtain ⟨s, line, later, c, p, f, hreports, hk, hcontext, hsince, hf, hname⟩ :=
      exists_of_readsMember h
    obtain ⟨body, below, hc, hs, -, hall⟩ := hrecorded s line later c hreports hk hcontext
    have hbelow : s.scopes.tail = below := by rw [hs, hc]; rfl
    have haccess := (hall _ _ _ (hbelow ▸ hsince)).2.1 f hf
    exact ⟨s, line, later, c, p, f, hreports, hsince, hf, hname, by rw [haccess, hlevel]⟩
  exact ⟨member 0 1 (by decide +kernel) hclass, member 0 3 (by decide +kernel) rfl,
    member 5 1 (by decide +kernel) hstruct, member 5 3 (by decide +kernel) rfl,
    member 0 10 (by decide +kernel) rfl⟩

end HeaderOutline
