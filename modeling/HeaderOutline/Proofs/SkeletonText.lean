import HeaderOutline.Proofs.LineGroups
import HeaderOutline.Proofs.Recognition
import HeaderOutline.Skeleton
/-!
# The text of a skeleton

What a skeleton is made up of is told by the calls of the reading: the line that includes the
header, and then a piece for each call. That line bears the last component of the path of the
header, in which no slash stands, so no comment begins in it; the pieces are read from the line
behind it on.

Results:
* `toList_text`: the skeleton from the calls.
* `texts_includeLine`: the lines of a text with the line that includes a header in front.
* `leads_includeLine`: that line is a directive.
-/
namespace HeaderOutline
open Text

/-! ## Pieces -/

namespace Skeleton

def written (header : String) (ks : List Call) : List Char :=
  ks.flatMap fun k => (piece header ⟨k.1, 0, k.2⟩).toList

def includeLine (header : String) : List Char :=
  '#' :: ("include \x22".toList ++ ((includeName header).toList ++ ['\x22']))

variable {header : String}

theorem written_append (ks ls : List Call) :
    written header (ks ++ ls) = written header ks ++ written header ls :=
  List.flatMap_append

/-- Callbacks behind the start of the parse add what their calls add. -/
theorem toList_text_callbacksOf {es : List Entry}
    (h : ∀ c ∈ callbacksOf es, c.event ≠ .parseStart) :
    (text header (callbacksOf es)).toList = written header (calls es) := by
  induction es with
  | nil => rfl
  | cons e es ih =>
    cases e with
    | note n => exact ih h
    | callback c =>
      obtain ⟨hc, hes⟩ := List.forall_mem_cons.mp h
      have hpiece : (piece header c).toList = written header (calls [.callback c]) := by
        obtain ⟨event, line, scopes⟩ := c
        cases event with
        | parseStart => exact absurd rfl hc
        | _ => simp [calls, Entry.call?, Event.isStructural, written, piece]
      have hcons : calls (.callback c :: es) = calls [.callback c] ++ calls es :=
        calls_append [_] es
      rw [hcons, written_append, ← ih hes, ← hpiece, ← String.toList_append]
      exact congrArg String.toList (text_append header [c] (callbacksOf es))

end Skeleton

/-! ## Whole readings -/

namespace State

variable {s t : State} {line : SourceLine} {later : List SourceLine} {es : List Entry}

theorem enter_noStart (line : SourceLine) (s : State) :
    ∀ c ∈ callbacksOf (s.enter line).1, c.event ≠ .parseStart := by
  unfold enter
  split
  · simp
  · cases s.group <;> simp

theorem step_noStart (line : SourceLine) (later : List SourceLine) (s : State) :
    ∀ c ∈ callbacksOf (s.step line later).1, c.event ≠ .parseStart := by
  intro c hc
  rw [step, callbacksOf_append, List.mem_append] at hc
  rcases hc with hc | hc
  · exact enter_noStart line _ c hc
  · intro he
    have hs := (isWithin_dispatch line _ c hc).1
    rw [he] at hs
    cases hs

theorem reads_noStart (h : Reads s es t) : ∀ c ∈ callbacksOf es, c.event ≠ .parseStart := by
  induction h with
  | refl => simp
  | @next s t u line later es fs _ hs _ ih =>
    have hstep := step_noStart line later s
    rw [hs] at hstep
    rw [callbacksOf_append]
    exact List.forall_mem_append.mpr ⟨hstep, ih⟩

theorem close_noStart (s : State) : ∀ c ∈ callbacksOf s.close, c.event ≠ .parseStart := by
  unfold close
  cases s.group <;> cases s.scopes <;> simp

theorem run_noStart (s : State) : ∀ c ∈ callbacksOf s.run.1, c.event ≠ .parseStart := by
  obtain ⟨es, t, hr, ht | ⟨line, later, fs, e, hp, hs⟩⟩ := exists_reads s
  · rw [run_of_reads hr ht, callbacksOf_append]
    exact List.forall_mem_append.mpr ⟨reads_noStart hr, close_noStart t⟩
  · have hstep := step_noStart line later t
    rw [hs] at hstep
    rw [run_of_reads_error hr hp hs, callbacksOf_append]
    exact List.forall_mem_append.mpr ⟨reads_noStart hr, hstep⟩

end State

namespace Skeleton

/-- A skeleton is made up of the line that includes the header and what the calls add. -/
theorem toList_text (header source : String) :
    (text header (parse source).callbacks).toList =
      includeLine header ++ '\n' :: '\n' :: written header (parse source).calls := by
  obtain ⟨hc, -⟩ := parse_of_run (Prod.eta (startOf source).run).symm
  have hcalls : (parse source).calls = calls (startOf source).run.1 := by
    unfold Reading.calls parse
    simp only
    split <;> simp [Event.isStructural, startOf]
  have hrest := @toList_text_callbacksOf header _ (State.run_noStart (startOf source))
  rw [hc, hcalls, ← hrest]
  have happ := text_append header [⟨.parseStart, 0, []⟩] (callbacksOf (startOf source).run.1)
  rw [List.singleton_append] at happ
  rw [happ, String.toList_append]
  simp [text, piece, includeLine]

end Skeleton

/-! ## File names -/

theorem Text.mem_of_mem_split {mark : Char} {cs p : List Char} (h : p ∈ split mark cs) :
    ∀ c ∈ p, c ∈ cs ∧ c ≠ mark := by
  induction cs generalizing p with
  | nil =>
    rw [split, List.mem_singleton] at h
    simp [h]
  | cons d r ih =>
    have hmono : ∀ {q}, q ∈ split mark r → ∀ c ∈ q, c ∈ d :: r ∧ c ≠ mark := fun hq c hc =>
      ⟨List.mem_cons_of_mem d (ih hq c hc).1, (ih hq c hc).2⟩
    rw [split] at h
    split at h
    · rcases List.mem_cons.mp h with rfl | h
      · simp
      · exact hmono h
    · next hd =>
      cases hs : split mark r with
      | nil => exact absurd hs (split_ne_nil mark r)
      | cons q qs =>
        rw [hs] at h hmono
        rcases List.mem_cons.mp h with rfl | h
        · exact List.forall_mem_cons.mpr
            ⟨⟨List.mem_cons_self, hd⟩, hmono List.mem_cons_self⟩
        · exact hmono (List.mem_cons_of_mem q h)

/-- A file name is made of characters of the path, and no slash is among them. -/
theorem Skeleton.mem_includeName {header : String} {c : Char}
    (h : c ∈ (includeName header).toList) : c ∈ header.toList ∧ c ≠ '/' := by
  unfold includeName Path.fileName? at h
  split at h
  · simp at h
  · next name others hn =>
    split at h
    · simp at h
    · have hmem : name ∈ (split '/' header.toList).reverse :=
        (List.dropWhile_suffix _).subset (hn ▸ List.mem_cons_self)
      refine mem_of_mem_split (List.mem_reverse.mp hmem) c ?_
      simpa using h

/-! ## The line that includes the header -/

/-- Without slashes no comment begins, whatever is quoted. -/
theorem SourceLine.strip_of_noSlash {m : Mode} {cs : List Char} (hm : m ≠ .comment)
    (h : '/' ∉ cs) : ∃ last, last ≠ .comment ∧ strip m cs = (cs, last) := by
  fun_induction strip m cs with
  | case1 m => exact ⟨m, hm, rfl⟩
  | case2 | case3 => exact absurd rfl hm
  | case4 q c r kept last hs ih =>
    obtain ⟨l, hl, hr⟩ := ih (by simp) fun hc => h (by simp [hc])
    rw [hs] at hr
    cases hr
    exact ⟨last, hl, rfl⟩
  | case5 q c r _ kept last hs ih =>
    obtain ⟨l, hl, hr⟩ := ih (by split <;> simp) fun hc => h (by simp [hc])
    rw [hs] at hr
    cases hr
    exact ⟨last, hl, rfl⟩
  | case6 | case7 => simp at h
  | case8 c r _ _ kept last hs ih =>
    obtain ⟨l, hl, hr⟩ := ih (by split <;> simp) fun hc => h (by simp [hc])
    rw [hs] at hr
    cases hr
    exact ⟨last, hl, rfl⟩

/-- A first line without slashes is kept, and so are the lines behind it. -/
theorem texts_ofSource_cons {l cs : List Char} (hb : '\n' ∉ l) (hs : '/' ∉ l)
    (h : noComment cs = true) :
    (SourceLine.ofSource (l ++ '\n' :: cs)).map (·.text) = textLines (l ++ '\n' :: cs) := by
  have hlines : lines (l ++ '\n' :: cs) = dropEnd (l ++ ['\n']) :: lines cs := by
    rw [lines, rawLines_append_break hb, List.map_cons, lines]
  have hdrop : '/' ∉ dropEnd (l ++ ['\n']) := fun hm => by
    have hsub : ∀ c ∈ dropEnd (l ++ ['\n']), c ∈ l := by
      simp only [dropEnd, List.getLast?_concat, if_true, List.dropLast_concat]
      split
      · exact fun c hc => List.dropLast_subset l hc
      · exact fun c hc => hc
    exact hs (hsub _ hm)
  obtain ⟨last, hlast, hstrip⟩ := SourceLine.strip_of_noSlash (m := .code) (by simp) hdrop
  have hnext : last.nextLine = .code := by
    cases last with
    | comment => exact absurd rfl hlast
    | code | quoted q => rfl
  have hlater := texts_ofLines (fun k hk => noComment_of_mem_lines h hk) 2
  simp only [SourceLine.ofSource, textLines, hlines, SourceLine.ofLines, hstrip, hnext,
    List.map_cons, List.filter_cons]
  cases trim (dropEnd (l ++ ['\n'])) with
  | nil => exact hlater
  | cons c r => exact congrArg (_ :: ·) hlater

namespace Skeleton

variable {header : String}

theorem solid_includeLine (h : '\n' ∉ header.toList) : Solid (includeLine header) where
  head := ⟨'#', _, rfl, by decide⟩
  last := ⟨'#' :: ("include \x22".toList ++ (includeName header).toList), '\x22',
    by simp [includeLine], by decide⟩
  noBreak hm := by
    have hword : '\n' ∉ "include \x22".toList := by decide
    simp only [includeLine, List.mem_cons, List.mem_append, List.not_mem_nil, or_false] at hm
    rcases hm with hm | hm | hm | hm
    · exact absurd hm (by decide)
    · exact hword hm
    · exact h (mem_includeName hm).1
    · exact absurd hm (by decide)

/-- The lines of a text with the line that includes a header in front. -/
theorem texts_includeLine {cs : List Char} (hb : '\n' ∉ header.toList)
    (h : noComment cs = true) :
    (SourceLine.ofSource (includeLine header ++ '\n' :: cs)).map (·.text) =
      textLines (includeLine header ++ '\n' :: cs) := by
  refine texts_ofSource_cons (solid_includeLine hb).noBreak (fun hm => ?_) h
  have hword : '/' ∉ "include \x22".toList := by decide
  simp only [includeLine, List.mem_cons, List.mem_append, List.not_mem_nil, or_false] at hm
  rcases hm with hm | hm | hm | hm
  · exact absurd hm (by decide)
  · exact hword hm
  · exact (mem_includeName hm).2 rfl
  · exact absurd hm (by decide)

/-- The line that includes a header is a directive. -/
theorem leads_includeLine (fs : ScopeStack) (h : '\n' ∉ header.toList) (cs : List Char) :
    Leads fs (includeLine header ++ '\n' :: cs) [] fs cs := by
  have hdefine : Rule.define? (includeLine header) = none := rfl
  have hmatch : Rule.match? fs.context (fs.topClass?.map (·.name))
      (includeLine header ++ lineEnd ('\n' :: cs)) = some (.directive, .directive, []) := by
    have hend : lineEnd ('\n' :: cs) = [] := rfl
    rw [hend, List.append_nil]
    refine Rule.match?_of_recognize? rfl rfl fun r hr _ => ?_
    have hlist : Rule.all.takeWhile (· ≠ .directive) = [.define] := rfl
    rw [hlist, List.mem_singleton] at hr
    rw [hr]
    exact hdefine
  have hdoes : Construct.directive.Does fs [] fs :=
    Construct.does_of_perform (by simp) (by simp) fun _ hs => ⟨rfl, hs, rfl, rfl⟩
  have hline := @leads_of_match fs fs _ ('\n' :: cs) _ _ _ (solid_includeLine h) hmatch hdoes
  exact hline.trans (.blank (by decide) (.refl fs cs))

end Skeleton

end HeaderOutline
