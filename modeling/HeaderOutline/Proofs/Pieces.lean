import HeaderOutline.Proofs.BraceScan
import HeaderOutline.Proofs.Move
/-!
# What a reading takes

Every dispatch takes a piece of the pending text: the front that a rule matched, with the lines that
a macro or an enum joined to it; the text that is given up at the end of input; and nothing at all
when a fragment is only joined with the next line. `pieces` lists what a whole reading takes,
together with the rule that took it.

Results:
* `suffix_of_match?`: what a match leaves is an end of the fragment.
* `suffix_gatherEnum`, `suffix_joinLines`: the same for enums and macros with their joined lines.
* `front_append`: a piece and what is left of its text make up the text.
-/
namespace HeaderOutline
open Text Declaration

/-! ## What is left is an end -/

namespace Text

theorem suffix_of_after? {word : String} {cs r : List Char} (h : after? word cs = some r) :
    r <:+ cs :=
  ⟨_, append_of_after? h⟩

theorem suffix_of_afterWord? {word : String} {cs r : List Char} (h : afterWord? word cs = some r) :
    r <:+ cs :=
  ⟨_, append_of_afterWord? h⟩

theorem suffix_of_afterMark? {mark : Char} {cs r : List Char} (h : afterMark? mark cs = some r) :
    r <:+ cs :=
  ⟨[mark], append_of_afterMark? h⟩

theorem suffix_of_name? {cs w r : List Char} (h : name? cs = some (w, r)) : r <:+ cs :=
  ⟨w, append_of_name? h⟩

end Text

theorem suffix_textOf (rest : List Token) (cs : List Char) : Token.textOf rest cs <:+ cs := by
  obtain ⟨lead, h, -⟩ := scan_tokens ((Token.tokens cs).length - rest.length) cs
  exact ⟨lead, h⟩

namespace Declaration

theorem suffix_skipScopeWord (cs : List Char) : skipScopeWord cs <:+ cs := by
  unfold skipScopeWord
  split
  · next rest h =>
    refine (trimStart_suffix rest).trans ?_
    rcases Option.or_eq_some_iff.mp h with h | ⟨-, h⟩ <;> exact suffix_of_afterWord? h
  · exact List.suffix_refl _

theorem suffix_enumName (cs : List Char) : (enumName cs).2 <:+ cs := by
  unfold enumName
  split
  · next h => exact suffix_of_name? h
  · exact List.suffix_refl _

theorem suffix_of_skipUnderlying? {cs r : List Char} (h : skipUnderlying? cs = some r) :
    r <:+ cs := by
  unfold skipUnderlying? at h
  split at h
  · cases h; exact List.suffix_refl _
  · split at h
    · split at h
      · cases h
      · cases h; exact (List.dropWhile_suffix _).trans (List.suffix_cons ..)
    · cases h; exact List.suffix_refl _

theorem semicolon_of_enumDecl? {cs r : List Char} {d : EnumDecl}
    (h : enumDecl? cs = some (d, r)) : ';' :: r <:+ cs := by
  simp only [enumDecl?, Option.bind_eq_bind, Option.bind_eq_some_iff, Option.some.injEq,
    Prod.mk.injEq] at h
  obtain ⟨c1, h1, c2, h2, c3, h3, c4, h4, c5, h5, members, -, -, rfl⟩ := h
  have s1 := (suffix_skipScopeWord (trimStart c1)).trans
    ((trimStart_suffix c1).trans (suffix_of_afterWord? h1))
  have s2 := (suffix_of_skipUnderlying? h2).trans
    ((trimStart_suffix _).trans ((suffix_enumName _).trans s1))
  have s3 := (suffix_of_afterMark? h3).trans s2
  have s4 := (suffix_of_afterMark? h4).trans ((List.dropWhile_suffix _).trans s3)
  rw [append_of_afterMark? h5]
  exact (trimStart_suffix c4).trans s4

theorem suffix_of_enumDecl? {cs r : List Char} {d : EnumDecl} (h : enumDecl? cs = some (d, r)) :
    r <:+ cs :=
  (List.suffix_cons ..).trans (semicolon_of_enumDecl? h)

theorem suffix_of_afterStatement? {cs r : List Char} (h : afterStatement? cs = some r) :
    r <:+ cs := by
  obtain ⟨ts, -, rfl⟩ := Option.map_eq_some_iff.mp h
  exact suffix_textOf ts cs

end Declaration

namespace Rule

theorem suffix_of_readText {α : Type} {read : Reader α} {make : α → Construct}
    {cs rest : List Char} {k : Construct} (h : readText read make cs = some (k, rest)) :
    rest <:+ cs := by
  obtain ⟨⟨a, ts⟩, -, heq⟩ := Option.map_eq_some_iff.mp h
  exact (Prod.mk.inj heq).2 ▸ suffix_textOf ts cs

theorem eq_nil_of_define? {cs rest : List Char} {k : Construct} (h : define? cs = some (k, rest)) :
    rest = [] := by
  simp only [define?, Option.bind_eq_bind, Option.bind_eq_some_iff] at h
  obtain ⟨c1, -, c2, -, h⟩ := h
  split at h
  · cases h
  · split at h <;> cases h
    rfl

theorem eq_nil_of_define {className : Option String} {cs rest : List Char} {rule : Rule}
    {name : String} {value : List Char}
    (h : recognize? className cs rule = some (.define name value, rest)) : rest = [] := by
  cases makes_of_recognize? h
  exact eq_nil_of_define? h

theorem suffix_of_access? {cs rest : List Char} {k : Construct} (h : access? cs = some (k, rest)) :
    rest <:+ cs := by
  simp only [access?, Option.bind_eq_bind, Option.bind_eq_some_iff, List.findSome?_eq_some_iff,
    Option.map_eq_some_iff] at h
  obtain ⟨⟨level, c1⟩, ⟨_, _, _, -, ⟨c1', h1, heq⟩, -⟩, c2, h2, h⟩ := h
  cases heq
  split at h
  · cases h
  · cases h
    exact (suffix_of_afterMark? h2).trans ((trimStart_suffix _).trans (suffix_of_after? h1))

theorem suffix_of_linkage? {cs rest : List Char} {k : Construct}
    (h : linkage? cs = some (k, rest)) : rest <:+ cs := by
  simp only [linkage?, Option.bind_eq_bind, Option.bind_eq_some_iff, Option.some.injEq,
    Prod.mk.injEq] at h
  obtain ⟨c1, h1, c2, h2, c3, h3, -, rfl⟩ := h
  have s2 := (suffix_of_afterMark? h2).trans ((trimStart_suffix _).trans (suffix_of_after? h1))
  exact (trimStart_suffix c3).trans
    ((suffix_of_afterMark? h3).trans ((List.dropWhile_suffix _).trans s2))

theorem suffix_laterNames (cs : List Char) : (laterNames cs).2 <:+ cs := by
  fun_induction laterNames cs with
  | case1 | case2 | case4 => exact List.suffix_refl _
  | case3 cs behind hb word rest hn hlt names last heq ih =>
    rw [heq] at ih
    exact ih.trans ((suffix_of_name? hn).trans
      ((trimStart_suffix _).trans ((suffix_of_after? hb).trans (trimStart_suffix _))))

theorem suffix_nameSpaceName (cs : List Char) : (nameSpaceName cs).2 <:+ cs := by
  unfold nameSpaceName
  split
  · next word rest hn => exact (suffix_laterNames rest).trans (suffix_of_name? hn)
  · exact List.suffix_refl _

theorem suffix_skipInline (cs : List Char) : skipInline cs <:+ cs := by
  unfold skipInline
  split
  · next rest h =>
    split
    · exact (trimStart_suffix _).trans (suffix_of_after? h)
    · exact List.suffix_refl _
  · exact List.suffix_refl _

theorem suffix_of_nameSpace? {cs rest : List Char} {k : Construct}
    (h : nameSpace? cs = some (k, rest)) : rest <:+ cs := by
  simp only [nameSpace?, Option.bind_eq_bind, Option.bind_eq_some_iff] at h
  obtain ⟨c1, h1, h⟩ := h
  split at h
  · cases h
  · cases h
    exact (suffix_nameSpaceName _).trans
      ((trimStart_suffix _).trans ((suffix_of_afterWord? h1).trans (suffix_skipInline cs)))

theorem suffix_of_recognize? {className : Option String} {cs rest : List Char} {k : Construct}
    {rule : Rule} (h : recognize? className cs rule = some (k, rest)) : rest <:+ cs := by
  cases rule <;> simp only [recognize?] at h
  case define => rw [eq_nil_of_define? h]; exact List.nil_suffix
  case directive =>
    obtain ⟨_, -, heq⟩ := Option.map_eq_some_iff.mp h
    cases heq
    exact List.nil_suffix
  case access => exact suffix_of_access? h
  case linkage => exact suffix_of_linkage? h
  case nameSpace => exact suffix_of_nameSpace? h
  case enumHead =>
    split at h
    · cases h; exact List.suffix_refl _
    · cases h
  case constructor =>
    obtain ⟨name, -, h⟩ := Option.bind_eq_some_iff.mp h
    exact suffix_of_readText h
  all_goals exact suffix_of_readText h

/-- What a match leaves is an end of the fragment. -/
theorem suffix_of_match? {context : Context} {className : Option String} {cs rest : List Char}
    {k : Construct} {rule : Rule} (h : match? context className cs = some (rule, k, rest)) :
    rest <:+ cs :=
  suffix_of_recognize? (recognize?_of_match? h).2

end Rule

/-! ## Pieces -/

/-- What one dispatch takes, and the rule that took it. -/
structure Piece where
  rule : Option Rule
  text : List Char
  deriving DecidableEq, Repr

def front (cs rest : List Char) : List Char :=
  cs.take (cs.length - rest.length)

theorem front_append {cs rest : List Char} (h : rest <:+ cs) : front cs rest ++ rest = cs := by
  obtain ⟨lead, rfl⟩ := h
  simp [front]

def withLines (text : List Char) (ls : List SourceLine) : List Char :=
  ls.foldl (fun cs l => cs ++ ' ' :: l.text) text

theorem withLines_append (text : List Char) (ls ms : List SourceLine) :
    withLines text (ls ++ ms) = withLines (withLines text ls) ms :=
  List.foldl_append

namespace State

/-- The text that a match takes of the fragment `text` and the lines `later`, with the blanks that
are trimmed behind it. -/
def takenText (text : List Char) (later : List SourceLine) (rest : List Char) :
    Construct → List Char
  | .enumHead =>
    let g := gatherEnum 0 text later
    front (withLines text (later.take g.merges)) (trimStart g.rest)
  | .define _ value =>
    withLines text (later.take (later.length - (joinLines value later).2.length))
  | _ => front text (trimStart rest)

/-- The lines that are pending once a match has been acted upon. -/
def leftLines (line : SourceLine) (later : List SourceLine) (rest : List Char) :
    Construct → List SourceLine
  | .enumHead =>
    let g := gatherEnum 0 line.text later
    requeue line.number g.rest g.pending
  | .define _ value => requeue line.number rest (joinLines value later).2
  | _ => requeue line.number rest later

/-- What the dispatch of `line` takes; `later` are the other pending lines. -/
def piece (line : SourceLine) (later : List SourceLine) (s : State) : Piece :=
  match s.found? line with
  | none => ⟨none, if later.isEmpty then line.text else []⟩
  | some (rule, k, rest) => ⟨some rule, takenText line.text later rest k⟩

/-- What the reading takes from here on, in order; a step that fails is the last one. -/
def pieces (s : State) : List Piece :=
  match _hs : s.pending with
  | [] => []
  | line :: later =>
    match _h : s.step line later with
    | (_, .error _) => [s.piece line later]
    | (_, .ok next) => s.piece line later :: pieces next
termination_by weight s.pending
decreasing_by
  rw [_hs]
  exact weight_step (by rw [_h])

theorem pending_perform {s : State} {k : Construct} (hk : ∀ name value, k ≠ .define name value) :
    (s.perform k).2.pending = s.pending := by
  unfold perform
  split
  · next name value => exact absurd rfl (hk name value)
  all_goals try rfl
  · split <;> rfl
  · unfold openBrace
    split
    · rfl
    · split <;> rfl

theorem pending_readEnum (line : SourceLine) (s : State) :
    (s.readEnum line).2.pending = leftLines line s.pending [] .enumHead := by
  unfold readEnum
  simp only
  split <;> rfl

theorem pending_act {line : SourceLine} {rest : List Char} {k : Construct} {s t : State}
    {es : List Entry} (h : s.act line rest k = (es, .ok t)) :
    t.pending = leftLines line s.pending rest k := by
  cases k with
  | enumHead =>
    simp only [act, Prod.mk.injEq, Except.ok.injEq] at h
    obtain ⟨-, rfl⟩ := h
    exact pending_readEnum line s
  | closeBrace =>
    simp only [act] at h
    split at h
    · cases h
    · next es' u hc =>
      simp only [Prod.mk.injEq, Except.ok.injEq] at h
      obtain ⟨-, rfl⟩ := h
      have hu : u.pending = s.pending := pending_closeBrace (by rw [hc])
      show requeue line.number rest u.pending = _
      rw [hu]; rfl
  | define name value =>
    simp only [act, Prod.mk.injEq, Except.ok.injEq] at h
    obtain ⟨-, rfl⟩ := h
    rfl
  | _ =>
    simp only [act, Prod.mk.injEq, Except.ok.injEq] at h
    obtain ⟨-, rfl⟩ := h
    show requeue line.number rest (s.perform _).2.pending = _
    rw [pending_perform (by simp)]; rfl

/-- An enum takes the front of its text with the first `merges` of the lines joined to it. -/
theorem suffix_gatherEnum (n : Nat) (text : List Char) (later : List SourceLine) :
    ∃ k, (gatherEnum n text later).merges = n + k ∧ k ≤ later.length ∧
      (gatherEnum n text later).pending = later.drop k ∧
      (gatherEnum n text later).rest <:+ withLines text (later.take k) := by
  fun_induction gatherEnum n text later with
  | case1 later n text decl rest h => exact ⟨0, rfl, Nat.zero_le _, rfl, suffix_of_enumDecl? h⟩
  | case2 later n text _ rest h => exact ⟨0, rfl, Nat.zero_le _, rfl, suffix_of_afterStatement? h⟩
  | case3 n text => exact ⟨0, rfl, Nat.le_refl _, rfl, List.nil_suffix⟩
  | case4 n text _ _ l ls ih =>
    obtain ⟨k, h1, h2, h3, h4⟩ := ih
    exact ⟨k + 1, by omega, Nat.succ_le_succ h2, h3, h4⟩

theorem suffix_joinLines (value : List Char) (later : List SourceLine) :
    (joinLines value later).2 <:+ later := by
  fun_induction joinLines value later with
  | case1 => exact List.suffix_refl _
  | case2 value l ls _ ih => exact ih.trans (List.suffix_cons ..)
  | case3 => exact List.suffix_refl _

end State

end HeaderOutline
