import HeaderOutline.Proofs.LinkageHeads
import HeaderOutline.Proofs.ScopesBelow
import Mathlib.Data.List.Forall2
/-!
# Linkage blocks are transparent

What is declared in `extern "C" { .. }` belongs to the scope around the block. So a header that ends
clean may be put into such a block, and that into another one: it makes the callbacks that it makes
alone, with as many opened linkage blocks at the bottom of their scopes and that many lines further
down, and the whole ends clean again.

Results:
* `block_of_clean`: a header in one block.
* `linkage_transparent`: a header in any number of blocks.
-/
namespace HeaderOutline
open Text State

/-- The header in a linkage block, with its brace behind the head. -/
def block (L : LanguageName) (source : String) : String :=
  String.ofList (L.head ++ [' ', '\x7b', '\n']) ++ source ++ "\n\x7d"

/-- The header in linkage blocks, the outermost first. -/
def nest (Ls : List LanguageName) (source : String) : String :=
  Ls.foldr block source

/-- The header is read to its end with no scope open, no text given up and no macro that ends in a
backslash, and it does not end inside a comment. -/
structure EndsClean (source : String) : Prop where
  result : ∃ f, (parse source).result = .ok f ∧ f.summary.unclosedScopes = 0 ∧
    f.tally.discarded = 0
  settled : ∀ c ∈ (parse source).callbacks, c.event.endsOpen = false
  comment : ¬ SourceLine.EndsInComment source.toList

theorem toList_block (L : LanguageName) (source : String) :
    (block L source).toList =
      (L.head ++ [' ', '\x7b']) ++ '\n' :: (source.toList ++ '\n' :: ['\x7d']) := by
  simp [block]

/-- The lines of the header and of the brace behind it. -/
def linesInside (source : String) : List SourceLine :=
  SourceLine.ofSource (source.toList ++ '\n' :: ['\x7d'])

theorem one_le_of_mem_linesInside {source : String} {l : SourceLine} (h : l ∈ linesInside source) :
    1 ≤ l.number :=
  (SourceLine.number_of_mem_ofLines h).1

theorem enters_startOf_block (L : LanguageName) (source : String) :
    ∃ p u, Enters (startOf (block L source)) [p, ⟨some .openBrace, ['\x7b']⟩] [.linkage true] 1
      ((linesInside source).map (.renumber (· + 1))) u := by
  refine enters_block L ?_ rfl
  rw [pending_startOf, toList_block,
    SourceLine.ofSource_line (L.solid_head (.inr rfl)) (L.kept_line (.inr rfl)), linesInside]

/-! ## Inside a block -/

/-- The callbacks of constructs and braces of a header, from its course. -/
theorem structural_of_clean {source : String} {es : List Entry} {t : State} {first last : Callback}
    (hf : first.event = .parseStart) (hl : last.event = .parseEnd)
    (h : (parse source).callbacks = (first :: (callbacksOf es ++ callbacksOf t.ended)) ++ [last]) :
    structural (parse source).callbacks = structural (callbacksOf es) := by
  have ht : structural (callbacksOf t.ended) = [] := by
    unfold ended
    cases t.group <;> rfl
  rw [h, structural_append, ← List.singleton_append, structural_append, structural_append, ht]
  simp [structural, hf, hl, Event.isStructural]

/-- In an opened linkage block, a header that ends clean and the brace behind it are read to the end
of the block. -/
theorem run_inside {source : String} (h : EndsClean source) :
    ∃ es t, (startIn [.linkage true] (linesInside source)).run = (es, .ok t) ∧ t.scopes = [] ∧
      t.tally.discarded = 0 ∧ structural (callbacksOf es) =
        (structural (parse source).callbacks).map (.rescope (· ++ [.linkage true])) := by
  obtain ⟨f, hf, hu, hd⟩ := h.result
  obtain ⟨es, t, hr, hp, hs, hsettled, rfl, hc⟩ := reads_clean hf hu h.settled
  have hstruct := structural_of_clean rfl rfl hc
  have hbrace : SourceLine.ofSource ['\x7d'] = [⟨1, ['\x7d']⟩] :=
    SourceLine.ofSource_solid (SourceLine.solid_brace rfl) (SourceLine.kept_brace rfl)
  have hlines := SourceLine.ofSource_append h.comment ['\x7d']
  rw [hbrace] at hlines
  generalize hn : 1 + (source.toList.count '\n' + 1) = n
  have hstart : startIn [.linkage true] (linesInside source) =
      ((startOf source).withLater [⟨n, ['\x7d']⟩]).rescope (· ++ [.linkage true]) := by
    rw [linesInside, hlines, ← hn]
    rfl
  -- The header takes the course that it takes alone, and comes to the brace.
  have hlater : Reads ((startOf source).withLater [⟨n, ['\x7d']⟩]) es _ :=
    reads_withLater hr hd hsettled
  have hr' := reads_below ScopeStack.AllLinkage.one hlater
  obtain ⟨v, hv⟩ : ∃ v, v = (t.withLater [⟨n, ['\x7d']⟩]).rescope (· ++ [.linkage true]) :=
    ⟨_, rfl⟩
  rw [← hv] at hr'
  have hp' : v.pending = [⟨n, ['\x7d']⟩] := by simp [hv, rescope, withLater, hp]
  have hs' : v.scopes = [.linkage true] := by simp [hv, rescope, withLater, hs]
  have hd' : v.tally.discarded = 0 := hv ▸ hd
  have hk : Construct.closeBrace.Does v.scopes [] [] := by
    rw [hs']
    exact Construct.does_closeBrace rfl
  obtain ⟨w, hw⟩ := enters_of_does hp' (match?_close v.scopes _) hk
  obtain ⟨fs, hr'', hcalls⟩ := hw.reads
  refine ⟨_, w, hstart ▸ run_of_reads (hr'.trans hr'') hw.pending, hw.scopes,
    hw.discarded.trans hd', ?_⟩
  simp only [callbacksOf_append, structural_append, structural_of_calls_nil hcalls,
    structural_close, List.append_nil, callbacksOf_rescope, structural_rescope, hstruct]

/-! ## One block -/

/-- The callback as it is made in a linkage block, one line further down. -/
def Callback.inBlock (c : Callback) : Callback :=
  (c.rescope (· ++ [.linkage true])).renumber (· + 1)

/-- A header that ends clean makes its callbacks in a block, and the block ends clean. -/
theorem block_of_clean (L : LanguageName) {source : String} (h : EndsClean source) :
    EndsClean (block L source) ∧ structural (parse (block L source)).callbacks =
      (structural (parse source).callbacks).map .inBlock := by
  obtain ⟨p, u, hu⟩ := enters_startOf_block L source
  obtain ⟨hstruct, -, -, hok⟩ := parse_of_enters (fun _ => one_le_of_mem_linesInside) hu
  obtain ⟨es, t, hrun, hscopes, hd, hes⟩ := run_inside h
  rw [hrun] at hstruct hok
  obtain ⟨f, hf, hopen, hdiscarded⟩ := hok t rfl
  have hcallbacks : structural (parse (block L source)).callbacks =
      (structural (parse source).callbacks).map .inBlock := by
    rw [hstruct, hes, List.map_map]
    rfl
  refine ⟨⟨⟨f, hf, by rw [hopen, hscopes]; rfl, hdiscarded.trans hd⟩, fun c hc => ?_, ?_⟩,
    hcallbacks⟩
  · -- What leaves a macro open is a callback of the header inside.
    by_contra hne
    have hs : c.event.isStructural = true := by
      cases hev : c.event <;> first | rfl | exact absurd (by rw [hev]; rfl) hne
    have hmem : c ∈ (structural (parse source).callbacks).map .inBlock :=
      hcallbacks ▸ List.mem_filter.mpr ⟨hc, hs⟩
    obtain ⟨d, hd', rfl⟩ := List.mem_map.mp hmem
    exact hne (h.settled d (List.mem_of_mem_filter hd'))
  · rw [toList_block]
    exact SourceLine.not_endsInComment_append
      (SourceLine.not_endsInComment_solid (L.solid_head (.inr rfl)) (L.kept_line (.inr rfl)))
      (SourceLine.not_endsInComment_append h.comment (SourceLine.not_endsInComment_solid
        (SourceLine.solid_brace rfl) (SourceLine.kept_brace rfl)))

/-! ## Blocks in blocks -/

/-- The second callback is the first as it is made in `n` linkage blocks: of the same construct, `n`
lines further down, with the frames of the blocks at the bottom of the scopes, and with the same
names, access and templates around it. -/
structure Callback.Within (n : Nat) (c d : Callback) : Prop where
  event : d.event = c.event
  line : d.line = c.line + n
  scopes : d.scopes = c.scopes ++ List.replicate n (.linkage true)
  path : d.scopes.path = c.scopes.path
  access : d.access? = c.access?
  insideTemplate : d.scopes.insideTemplate = c.scopes.insideTemplate
  isPublic : d.scopes.isPublic = c.scopes.isPublic

theorem Callback.within_zero (c : Callback) : c.Within 0 c :=
  ⟨rfl, rfl, (List.append_nil _).symm, rfl, rfl, rfl, rfl⟩

theorem Callback.classes_inBlock (c : Callback) : c.inBlock.scopes.classes = c.scopes.classes :=
  ScopeStack.classes_below .one _

theorem Callback.Within.inBlock {n : Nat} {c d : Callback} (h : c.Within n d) :
    c.Within (n + 1) d.inBlock where
  event := h.event
  line := congrArg (· + 1) h.line
  scopes := by
    show d.scopes ++ [.linkage true] = _
    rw [h.scopes, List.append_assoc, List.replicate_succ']
  path := (ScopeStack.path_below .one _).trans h.path
  access := by
    rw [← h.access, access?, ScopeStack.innermostClass?, classes_inBlock]
    rfl
  insideTemplate := by
    rw [← h.insideTemplate, ScopeStack.insideTemplate, classes_inBlock]
    rfl
  isPublic := by
    rw [← h.isPublic, ScopeStack.isPublic, classes_inBlock]
    rfl

/-- Linkage blocks are transparent: a header that ends clean, put into any number of linkage blocks,
makes the same callbacks of constructs and braces in the same order, and the whole ends clean. -/
theorem linkage_transparent (Ls : List LanguageName) {source : String} (h : EndsClean source) :
    EndsClean (nest Ls source) ∧
      List.Forall₂ (Callback.Within Ls.length) (structural (parse source).callbacks)
        (structural (parse (nest Ls source)).callbacks) := by
  induction Ls with
  | nil =>
    refine ⟨h, ?_⟩
    exact List.forall₂_same.mpr fun c _ => c.within_zero
  | cons L Ls ih =>
    obtain ⟨hclean, hcallbacks⟩ := ih
    obtain ⟨hclean', heq⟩ := block_of_clean L hclean
    refine ⟨hclean', ?_⟩
    rw [show nest (L :: Ls) source = block L (nest Ls source) from rfl, heq,
      List.forall₂_map_right_iff]
    exact hcallbacks.imp fun _ _ hw => hw.inBlock

/-- A class template with a method in a namespace, and an enum below. -/
def templateHeader : String :=
  "namespace n \x7b\ntemplate <typename T>\nclass C \x7b\npublic:\n T get() const;\n\x7d;\n\x7d\n" ++
    "enum E \x7b A \x7d;\n"

theorem linkage_transparent_templateHeader :
    EndsClean templateHeader ∧ EndsClean (nest [.c, .c] templateHeader) ∧
      (structural (parse templateHeader).callbacks).length = 8 ∧
      List.Forall₂ (Callback.Within 2) (structural (parse templateHeader).callbacks)
        (structural (parse (nest [.c, .c] templateHeader)).callbacks) := by
  have h : EndsClean templateHeader :=
    ⟨⟨⟨⟨8, 4, 0⟩, ⟨10, 4, 1, 0⟩, 8⟩, by decide +kernel, rfl, rfl⟩, by decide +kernel,
      by decide +kernel⟩
  have hn := linkage_transparent [.c, .c] h
  exact ⟨h, hn.1, by decide +kernel, hn.2⟩

end HeaderOutline
