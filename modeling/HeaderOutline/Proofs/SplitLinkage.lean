import HeaderOutline.Proofs.LinkageBlocks
import HeaderOutline.Proofs.OwnBraces
/-!
# Linkage heads without their brace

Whether a linkage head begins a block is told from the text behind it in its line. When the brace
stands on the next line, the head is taken as that of a single declaration and forgotten, and the
brace is one without a head: what it encloses is skipped. So the block is read as bare braces are.

In skipped braces only macros, other lines that begin with `#`, braces and statements are matched.
Where nothing else is matched inside the block, skipping it makes no difference, and only there is
it read alike.

Results:
* `matchIn?_skipped`: what is matched in skipped braces.
* `step_skipped`: a step that matches nothing else is made alike in skipped braces.
* `alike_skipped`, `bareUntilClosed_of_pieces`: when the two ways of reading agree.
* `split_linkage`: the two ways to write a block.
-/
namespace HeaderOutline
open Text

/-! ## Skipped braces -/

namespace ScopeStack

/-- The scopes with a skipped brace in the place of each frame. -/
def skipped (fs : ScopeStack) : ScopeStack :=
  fs.map fun _ => .skip

/-- The scopes are skipped braces and opened linkage blocks. -/
def AllBare (fs : ScopeStack) : Prop :=
  ∀ f ∈ fs, f = .skip ∨ f = .linkage true

variable {fs : ScopeStack}

theorem AllBare.tail {f : Frame} (h : AllBare (f :: fs)) : AllBare fs := fun g hg =>
  h g (List.mem_cons_of_mem f hg)

theorem AllBare.isOpened (h : AllBare fs) {f : Frame} (hf : f ∈ fs) : f.isOpened = true := by
  rcases h f hf with rfl | rfl <;> rfl

theorem AllBare.endEvent? (h : AllBare fs) {f : Frame} (hf : f ∈ fs) :
    State.endEvent? f = none := by
  rcases h f hf with rfl | rfl <;> rfl

theorem AllBare.topClass? (h : AllBare fs) : fs.topClass? = none := by
  cases fs with
  | nil => rfl
  | cons f fs => rcases h f List.mem_cons_self with rfl | rfl <;> rfl

theorem AllBare.path (h : AllBare fs) : fs.path = [] := by
  have hq : fs.filterMap Frame.qualifier? = [] := List.filterMap_eq_nil_iff.mpr fun f hf => by
    rcases h f hf with rfl | rfl <;> rfl
  rw [ScopeStack.path, hq]
  rfl

theorem allBare_skipped (fs : ScopeStack) : AllBare fs.skipped := fun f hf => by
  obtain ⟨_, -, rfl⟩ := List.mem_map.mp hf
  exact .inl rfl

theorem context_skipped (h : fs ≠ []) : fs.skipped.context = .skip := by
  cases fs with
  | nil => exact absurd rfl h
  | cons => rfl

end ScopeStack

open ScopeStack

namespace Rule

/-- A rule that applies in skipped braces applies everywhere. -/
theorem appliesIn_of_skip {rule : Rule} (h : rule.appliesIn .skip = true) (context : Context) :
    rule.appliesIn context = true := by
  cases rule <;> first | rfl | cases h

/-- A rule applies in skipped braces when what it recognizes may stand there. -/
theorem appliesIn_skip_iff {className : Option String} {cs rest : List Char} {k : Construct}
    {rule : Rule} (h : recognize? className cs rule = some (k, rest)) :
    rule.appliesIn .skip = true ↔ k.standsIn .skip = true := by
  cases makes_of_recognize? h <;> exact Iff.rfl

end Rule

/-- What is matched is a macro, another line with `#`, a brace or a statement, if anything. -/
def BareMatch (fs : ScopeStack) (cs : List Char) : Prop :=
  ∀ rule k rest, matchIn? fs cs = some (rule, k, rest) → k.standsIn .skip = true

/-- In skipped braces, what may stand there is matched as elsewhere. -/
theorem matchIn?_skipped {fs : ScopeStack} (hb : AllBare fs) (hne : fs ≠ []) {cs : List Char}
    (hp : BareMatch fs cs) : matchIn? fs.skipped cs = matchIn? fs cs := by
  have htop : fs.skipped.topClass?.map (·.name) = fs.topClass?.map (·.name) := by
    rw [hb.topClass?, (allBare_skipped fs).topClass?]
  rw [matchIn?, matchIn?, htop, context_skipped hne]
  cases hm : Rule.match? fs.context (fs.topClass?.map (·.name)) cs with
  | none =>
    have hrefuses := Rule.refuses_of_match?_eq_none hm
    exact List.findSome?_eq_none_iff.mpr fun r hr => Option.map_eq_none_iff.mpr
      (hrefuses r (Rule.appliesIn_of_skip (List.mem_filter.mp hr).2 _))
  | some found =>
    obtain ⟨rule, k, rest⟩ := found
    obtain ⟨-, hr⟩ := Rule.recognize?_of_match? hm
    refine Rule.match?_of_recognize? ((Rule.appliesIn_skip_iff hr).mpr (hp _ _ _ hm)) hr
      fun r hmem ha => ?_
    exact Rule.earlier_of_match? hm r hmem (Rule.appliesIn_of_skip ha _)

/-- What is reported, and the names of the scopes that it is reported in. -/
def Call.named (c : Call) : Event × List String :=
  (c.1, ScopeStack.path c.2)

/-- In bare scopes no brace is reported, and so everything is reported in them. -/
theorem Move.calls_bare {fs gs : ScopeStack} {ks : List Call} (h : Move fs ks gs)
    (hb : AllBare fs) : ∀ c ∈ ks, c.2 = fs := by
  cases h with
  | stay | access | linkage | skips => exact fun c hc => absurd hc List.not_mem_nil
  | define | plain | nameSpace | classHead | body =>
    intro c hc
    rw [List.mem_singleton.mp hc]
  | opens hf =>
    rw [hb.isOpened List.mem_cons_self] at hf
    cases hf
  | closes =>
    intro c hc
    rw [hb.endEvent? (List.mem_append_right _ List.mem_cons_self)] at hc
    cases hc

namespace State

variable {s t : State} {line : SourceLine} {later : List SourceLine} {es : List Entry}

/-! ## Steps -/

theorem openBrace_skipped (hb : AllBare s.scopes) :
    s.openBrace = ([], s.push .skip) := by
  unfold openBrace
  split
  · rfl
  · next f fs h =>
    rw [if_pos (hb.isOpened (h ▸ List.mem_cons_self))]

theorem closeBrace_skipped {number : Nat} {f : Frame} {fs : ScopeStack} (hb : AllBare s.scopes)
    (hs : s.scopes = f :: fs) : s.closeBrace number = ([], .ok { s with scopes := fs }) := by
  have hf : f ∈ s.scopes := hs ▸ List.mem_cons_self
  unfold closeBrace
  simp [hs, hb.isOpened hf, hb.endEvent? hf]

theorem perform_skipped {k : Construct} (hb : AllBare s.scopes) (hk : k.standsIn .skip = true) :
    (s.rescope skipped).perform k =
      ((s.perform k).1.map (.rescope skipped), (s.perform k).2.rescope skipped) := by
  have hb' : AllBare (s.rescope skipped).scopes := allBare_skipped s.scopes
  cases k with
  | define name value => exact define_rescope ..
  | directive | statement | closeBrace => rfl
  | openBrace => exact (openBrace_skipped hb').trans (by rw [perform, openBrace_skipped hb]; rfl)
  | _ => cases hk

/-- What may stand in skipped braces does there what it does in the block. -/
theorem act_skipped {rest : List Char} {k : Construct} (hb : AllBare s.scopes)
    (hne : s.scopes ≠ []) (hk : k.standsIn .skip = true) (h : s.act line rest k = (es, .ok t)) :
    (s.rescope skipped).act line rest k = (es.map (.rescope skipped), .ok (t.rescope skipped)) := by
  refine act_rescope (perform_skipped hb hk) (fun fs u _ hc => ?_) h
  obtain ⟨f, gs, hs⟩ := List.exists_cons_of_ne_nil hne
  have hs' : (s.rescope skipped).scopes = .skip :: skipped gs := congrArg skipped hs
  rw [closeBrace_skipped hb hs] at hc
  rw [closeBrace_skipped (allBare_skipped s.scopes) hs']
  cases hc
  rfl

theorem bare_act {rest : List Char} {k : Construct} (hb : AllBare s.scopes)
    (hne : s.scopes ≠ []) (hk : k.standsIn .skip = true) (h : s.act line rest k = (es, .ok t)) :
    AllBare t.scopes := by
  rcases act_cases h with ⟨rfl, -⟩ | ⟨rfl, fs, u, hc, -, rfl⟩ | ⟨-, hclose, -, rfl⟩
  · cases hk
  · obtain ⟨f, gs, hs⟩ := List.exists_cons_of_ne_nil hne
    rw [closeBrace_skipped hb hs] at hc
    cases hc
    exact (hs ▸ hb).tail
  · cases k with
    | define | directive | statement => exact hb
    | closeBrace => exact absurd rfl hclose
    | openBrace =>
      rw [perform, openBrace_skipped hb]
      intro f hf
      rcases List.mem_cons.mp hf with rfl | hf
      · exact .inl rfl
      · exact hb f hf
    | _ => cases hk

theorem piece_skipped (hb : AllBare s.scopes) (hne : s.scopes ≠ [])
    (hp : BareMatch s.scopes line.text) :
    (s.rescope skipped).piece line later = s.piece line later := by
  have hf : (s.rescope skipped).found? line = s.found? line := matchIn?_skipped hb hne hp
  unfold piece
  rw [hf]

/-- With a frame opened, a step does not fail. -/
theorem exists_step (hb : AllBare s.scopes) (hne : s.scopes ≠ []) (line : SourceLine)
    (later : List SourceLine) : ∃ es t, s.step line later = (es, .ok t) := by
  rcases h : s.step line later with ⟨es, e | t⟩
  · obtain ⟨f, fs, hs⟩ := List.exists_cons_of_ne_nil hne
    have hf : f ∈ s.scopes := hs ▸ List.mem_cons_self
    have hu := (step_error h).2.2 f hf
    rw [hb.isOpened hf] at hu
    cases hu
  · exact ⟨es, t, rfl⟩

/-- A step that matches nothing else is the same step in skipped braces. -/
theorem step_skipped (hb : AllBare s.scopes) (hne : s.scopes ≠ [])
    (hp : BareMatch s.scopes line.text) (h : s.step line later = (es, .ok t)) :
    (s.rescope skipped).step line later = (es.map (.rescope skipped), .ok (t.rescope skipped)) ∧
      AllBare t.scopes := by
  refine ⟨step_rescope (matchIn?_skipped hb hne hp) (fun v _ k _ _ hv hm ha => ?_) h, ?_⟩
  · exact act_skipped (hv ▸ hb) (hv ▸ hne) (hp _ _ _ hm) ha
  · rcases step_cases h with ⟨-, hs, -⟩ | ⟨_, _, _, hm, -, v, _, hv, ha⟩
    · exact hs ▸ hb
    · exact bare_act (hv ▸ hb) (hv ▸ hne) (hp _ _ _ hm) ha

/-! ## Whole readings -/

/-- As long as a scope is open, nothing is matched but macros, other lines that begin with `#`,
braces and statements. -/
inductive BareUntilClosed : State → Prop
  | closed {s : State} : s.scopes = [] → BareUntilClosed s
  | ended {s : State} : s.pending = [] → BareUntilClosed s
  | next {s t : State} {line : SourceLine} {later : List SourceLine} {es : List Entry} :
      s.pending = line :: later → BareMatch s.scopes line.text → s.step line later = (es, .ok t) →
        BareUntilClosed t → BareUntilClosed s

/-- The readings take the same pieces, report the same in scopes of the same names, and leave the
same number of scopes open, if they succeed. -/
structure Alike (s t : State) : Prop where
  pieces : s.pieces = t.pieces
  calls : (calls s.run.1).map Call.named = (calls t.run.1).map Call.named
  left : s.run.2.toOption.map (·.scopes.length) = t.run.2.toOption.map (·.scopes.length)

theorem Alike.refl (s : State) : Alike s s :=
  ⟨rfl, rfl, rfl⟩

theorem rescope_skipped_of_nil (h : s.scopes = []) : s.rescope skipped = s := by
  rw [rescope, h]
  cases s
  cases h
  rfl

/-- Skipping what is bare until it is closed makes no difference. -/
theorem alike_skipped (h : BareUntilClosed s) (hb : AllBare s.scopes) :
    Alike (s.rescope skipped) s := by
  induction h with
  | closed hs =>
    rw [rescope_skipped_of_nil hs]
    exact .refl _
  | @ended s hp =>
    have hp' : (s.rescope skipped).pending = [] := hp
    refine ⟨?_, ?_, ?_⟩
    · rw [pieces_of_pending_nil hp, pieces_of_pending_nil hp']
    · rw [run_of_pending_nil hp, run_of_pending_nil hp', calls_close, calls_close]
    · rw [run_of_pending_nil hp, run_of_pending_nil hp']
      exact congrArg some (List.length_map _)
  | @next s t line later es hp hm hs _ ih =>
    by_cases hne : s.scopes = []
    · rw [rescope_skipped_of_nil hne]
      exact .refl _
    · obtain ⟨hstep, hbare⟩ := step_skipped hb hne hm hs
      obtain ⟨hpieces, hcalls, hleft⟩ := ih hbare
      have hp' : (s.rescope skipped).pending = line :: later := hp
      -- What is reported in bare scopes is reported outside of all names.
      have hnamed : (HeaderOutline.calls (es.map (.rescope skipped))).map Call.named =
          (HeaderOutline.calls es).map Call.named := by
        rw [calls_rescope, List.map_map]
        refine List.map_congr_left fun c hc => ?_
        rw [Function.comp_apply, Call.named, Call.named, (move_step hs).calls_bare hb c hc,
          hb.path, (allBare_skipped _).path]
      refine ⟨?_, ?_, ?_⟩
      · rw [pieces_of_step hp hs, pieces_of_step hp' hstep, piece_skipped hb hne hm, hpieces]
      · rw [run_of_step hp hs, run_of_step hp' hstep, calls_append, calls_append, List.map_append,
          List.map_append, hnamed, hcalls]
      · rw [run_of_step hp hs, run_of_step hp' hstep, hleft]

theorem rule_piece (s : State) (line : SourceLine) (later : List SourceLine) :
    (s.piece line later).rule = (s.found? line).map (·.1) := by
  unfold piece
  split
  · next h => rw [h]; rfl
  · next h => rw [h]; rfl

/-- Where skipped braces have the same taken by the same rule, the match is bare. -/
theorem bareMatch_of_piece (hne : s.scopes ≠ [])
    (h : (s.rescope skipped).piece line later = s.piece line later) :
    BareMatch s.scopes line.text := by
  intro rule k rest hm
  have hm' : s.found? line = some (rule, k, rest) := hm
  have hrule := congrArg Piece.rule h
  rw [rule_piece, rule_piece, hm', Option.map_some, Option.map_eq_some_iff] at hrule
  obtain ⟨⟨rule', k', rest'⟩, hfound, rfl⟩ := hrule
  obtain ⟨happ, -⟩ := Rule.recognize?_of_match? hfound
  have hcontext : (s.rescope skipped).scopes.context = .skip := context_skipped hne
  rw [hcontext] at happ
  exact (Rule.appliesIn_skip_iff (Rule.recognize?_of_match? hm).2).mp happ

/-- Only what is bare until it is closed is taken alike in skipped braces. -/
theorem bareUntilClosed_of_pieces (hb : AllBare s.scopes)
    (h : (s.rescope skipped).pieces = s.pieces) : BareUntilClosed s := by
  generalize hw : weight s.pending = w
  induction w using Nat.strongRecOn generalizing s with
  | ind w ih =>
    by_cases hne : s.scopes = []
    · exact .closed hne
    cases hp : s.pending with
    | nil => exact .ended hp
    | cons line later =>
      have hp' : (s.rescope skipped).pending = line :: later := hp
      have hne' : (s.rescope skipped).scopes ≠ [] := fun he => hne (List.map_eq_nil_iff.mp he)
      obtain ⟨es, t, hs⟩ := exists_step hb hne line later
      obtain ⟨es', t', hs'⟩ := exists_step (allBare_skipped s.scopes) hne' line later
      rw [pieces_of_step hp hs, pieces_of_step hp' hs'] at h
      obtain ⟨hpiece, hpieces⟩ := List.cons.inj h
      have hm := bareMatch_of_piece hne hpiece
      obtain ⟨hstep, hbare⟩ := step_skipped hb hne hm hs
      obtain rfl : t' = t.rescope skipped := by
        rw [hs'] at hstep
        exact Except.ok.inj (congrArg (·.2) hstep)
      have hlt : weight t.pending < w := by
        rw [← hw, hp]
        exact weight_step (by rw [hs])
      exact .next hp hm hs (ih _ hlt hbare hpieces rfl)

end State

/-! ## The two ways to write a block -/

open State

/-- The header in a linkage block whose brace stands on a line below the head, with the gap between
them. -/
def splitBlock (L : LanguageName) (gap source : String) : String :=
  String.ofList (L.head ++ ['\n']) ++ gap ++ "\x7b\n" ++ source ++ "\n\x7d"

def bareBlock (source : String) : String :=
  "\x7b\n" ++ source ++ "\n\x7d"

/-- In a linkage block around the header, nothing is matched but macros, other lines that begin with
`#`, braces and statements. -/
def PlainInside (source : String) : Prop :=
  BareUntilClosed (startIn [.linkage true] (linesInside source))

/-- The number of scopes that are still open when a reading succeeds. -/
def Reading.unclosed? (r : Reading) : Option Nat :=
  r.result.toOption.map (·.summary.unclosedScopes)

theorem ofSource_brace (source : String) :
    SourceLine.ofSource ('\x7b' :: '\n' :: (source.toList ++ '\n' :: ['\x7d'])) =
      ⟨1, ['\x7b']⟩ :: (linesInside source).map (.renumber (· + 1)) :=
  SourceLine.ofSource_line (SourceLine.solid_brace rfl) (SourceLine.kept_brace rfl) _

theorem enters_startOf_bareBlock (source : String) :
    ∃ u, Enters (startOf (bareBlock source)) [⟨some .openBrace, ['\x7b']⟩] [.skip] 1
      ((linesInside source).map (.renumber (· + 1))) u := by
  refine enters_open ?_ (Construct.does_openSkip fun _ h => by cases h)
  rw [pending_startOf, ← ofSource_brace]
  simp [bareBlock]

theorem ofSource_splitBlock (L : LanguageName) {gap : String} (source : String)
    (hg : SourceLine.Gap gap.toList) (hw : WholeLines gap.toList) :
    SourceLine.ofSource (splitBlock L gap source).toList =
      ⟨1, L.head⟩ :: ⟨lineFeeds gap + 2, ['\x7b']⟩ ::
        (linesInside source).map (.renumber (· + (lineFeeds gap + 2))) := by
  have hsolid := L.solid_head (.inl rfl)
  have hkept := L.kept_line (.inl rfl)
  rw [List.append_nil] at hsolid hkept
  have hc : ¬ SourceLine.EndsInComment (L.head ++ ['\n']) :=
    SourceLine.not_endsInComment_append
      (SourceLine.not_endsInComment_solid hsolid hkept) (by decide)
  have hcount : (L.head ++ ['\n']).count '\n' = 1 := by
    rw [List.count_append, List.count_eq_zero.mpr hsolid.noBreak]
    rfl
  have htext : (splitBlock L gap source).toList = L.head ++ ['\n'] ++ gap.toList ++
      ('\x7b' :: '\n' :: (source.toList ++ '\n' :: ['\x7d'])) := by
    simp [splitBlock]
  have hbelow : ∀ n, SourceLine.below 1 (lineFeeds gap) (n + 2) = n + (lineFeeds gap + 2) :=
    fun n => by rw [SourceLine.below, if_neg (by omega)]; omega
  have hbrace : SourceLine.below 1 (lineFeeds gap) 2 = lineFeeds gap + 2 :=
    (hbelow 0).trans (Nat.zero_add _)
  rw [htext, SourceLine.ofSource_insert (.inr (by simp)) hc hg hw, hcount, List.append_assoc,
    List.singleton_append, SourceLine.ofSource_line hsolid hkept, ofSource_brace]
  simp only [List.map_cons, List.map_map]
  refine congrArg₂ _ rfl (congrArg₂ _ ?_ (List.map_congr_left fun l _ => ?_))
  · exact congrArg (SourceLine.mk · _) hbrace
  · exact congrArg (SourceLine.mk · l.text) (hbelow l.number)

theorem enters_startOf_splitBlock (L : LanguageName) {gap : String} (source : String)
    (hg : SourceLine.Gap gap.toList) (hw : WholeLines gap.toList) :
    ∃ p u, Enters (startOf (splitBlock L gap source)) [p, ⟨some .openBrace, ['\x7b']⟩] [.skip]
      (lineFeeds gap + 2) ((linesInside source).map (.renumber (· + (lineFeeds gap + 2)))) u := by
  refine enters_split L (m := 1) ?_ rfl
  rw [pending_startOf, ofSource_splitBlock L source hg hw]

/-- What the first steps leave is read as it stands in the scopes. -/
theorem calls_of_enters {source : String} {ps : List Piece} {fs : ScopeStack} {n : Nat}
    {lines : List SourceLine} {u : State} (hl : ∀ l ∈ lines, 1 ≤ l.number)
    (h : Enters (startOf source) ps fs n (lines.map (.renumber (· + n))) u) :
    (parse source).calls = calls (startIn fs lines).run.1 ∧
      piecesOf source = ps ++ (startIn fs lines).pieces ∧
      (parse source).unclosed? = (startIn fs lines).run.2.toOption.map (·.scopes.length) := by
  obtain ⟨hstruct, hpieces, herror, hok⟩ := parse_of_enters hl h
  refine ⟨?_, hpieces, ?_⟩
  · rw [Reading.calls, calls_eq_structural, ← callbacks_eq, hstruct, calls_eq_structural,
      List.map_map]
    rfl
  · cases hr : (startIn fs lines).run.2 with
    | error e => rw [Reading.unclosed?, herror e hr]; rfl
    | ok t =>
      obtain ⟨f, hf, hu, -⟩ := hok t hr
      rw [Reading.unclosed?, hf]
      exact congrArg some hu

/-- A linkage block whose brace stands below its head is read as bare braces are. The pieces behind
the brace are those of a block with the brace behind the head if and only if nothing but macros,
other lines that begin with `#`, braces and statements is matched inside. Then it makes the same
calls, in scopes of the same names, and succeeds alike. -/
theorem split_linkage (L : LanguageName) {gap source : String} (hg : SourceLine.Gap gap.toList)
    (hw : WholeLines gap.toList) :
    ((parse (splitBlock L gap source)).calls = (parse (bareBlock source)).calls ∧
      (parse (splitBlock L gap source)).unclosed? = (parse (bareBlock source)).unclosed?) ∧
    (PlainInside source ↔
      (piecesOf (splitBlock L gap source)).drop 2 = (piecesOf (block L source)).drop 2) ∧
    (PlainInside source →
      (parse (splitBlock L gap source)).calls.map Call.named =
        (parse (block L source)).calls.map Call.named ∧
      (parse (splitBlock L gap source)).unclosed? = (parse (block L source)).unclosed?) := by
  obtain ⟨p, u, hu⟩ := enters_startOf_splitBlock L source hg hw
  obtain ⟨v, hv⟩ := enters_startOf_bareBlock source
  obtain ⟨q, w, hw⟩ := enters_startOf_block L source
  obtain ⟨h1, h2, h3⟩ := calls_of_enters (fun _ => one_le_of_mem_linesInside) hu
  obtain ⟨h4, h5, h6⟩ := calls_of_enters (fun _ => one_le_of_mem_linesInside) hv
  obtain ⟨h7, h8, h9⟩ := calls_of_enters (fun _ => one_le_of_mem_linesInside) hw
  have hb : AllBare (startIn [.linkage true] (linesInside source)).scopes := fun f hf =>
    .inr (List.mem_singleton.mp hf)
  have hskip : startIn [.skip] (linesInside source) =
      (startIn [.linkage true] (linesInside source)).rescope skipped := rfl
  rw [hskip] at h1 h2 h3 h4 h5 h6
  refine ⟨⟨h1.trans h4.symm, h3.trans h6.symm⟩, ?_, fun hp => ?_⟩
  · rw [h2, h8]
    exact ⟨fun hp => (alike_skipped hp hb).pieces, bareUntilClosed_of_pieces hb⟩
  · have halike := alike_skipped hp hb
    exact ⟨by rw [h1, h7, halike.calls], by rw [h3, h9, halike.left]⟩

/-- A macro and a variable. -/
def plainLines : String :=
  "#define K 1\nextern int x;"

/-- A blank line and one with a comment. -/
def commentGap : String :=
  "\n // \x7b\n"

theorem split_linkage_plainLines :
    SourceLine.Gap commentGap.toList ∧ WholeLines commentGap.toList ∧
      PlainInside plainLines ∧ ¬ PlainInside "int f();" ∧
      (parse (splitBlock .c commentGap plainLines)).calls.map Call.named =
        (parse (block .c plainLines)).calls.map Call.named ∧
      (parse (splitBlock .c commentGap plainLines)).unclosed? = some 0 ∧
      (parse (splitBlock .c commentGap "int f();")).calls = [] := by
  have hw : WholeLines commentGap.toList := by decide +kernel
  have hg : SourceLine.Gap commentGap.toList := by
    have h : commentGap.toList = '\n' :: ' ' :: ('/' :: '/' :: [' ', '\x7b'] ++ '\n' :: []) := by
      decide +kernel
    rw [h]
    exact .blank (by decide) (.blank (by decide) (.lineComment (by decide) .nil))
  obtain ⟨-, hplain, hcalls⟩ := @split_linkage .c _ plainLines hg hw
  obtain ⟨hbare, hdeclares, -⟩ := @split_linkage .c _ "int f();" hg hw
  have hp : PlainInside plainLines := hplain.mpr (by decide +kernel)
  have hn : ¬ PlainInside "int f();" := fun h => absurd (hdeclares.mp h) (by decide +kernel)
  obtain ⟨hcalls, hopen⟩ := hcalls hp
  refine ⟨hg, hw, hp, hn, hcalls, hopen.trans (by decide +kernel), hbare.1.trans ?_⟩
  decide +kernel

end HeaderOutline
