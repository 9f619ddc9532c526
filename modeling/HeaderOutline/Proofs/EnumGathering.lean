import HeaderOutline.Proofs.EnumReading
import HeaderOutline.Proofs.LeadingTokens
/-!
# Gathering the lines of an enum

An enum is a head without braces, a body in one pair of braces, and a semicolon. So a text holds one
at its front in one way only, and a part of the text that ends before the semicolon holds none. The
lines of an enum are joined until this semicolon is there.

Results:
* `layout_of_enumDecl?`: what an enum that is read is made of.
* `enumDecl?_append_rest`: a part of a text holds no other enum than the text.
* `gatherEnum_joined`, `enumDecl?_of_gatherEnum`: the lines that are joined to an enum.
* `match?_startsEnum`: what begins with the word `enum` is matched as an enum.
-/
namespace HeaderOutline
open Text Declaration

/-! ## What is passed over in front of the body -/

theorem isNameChar_of_isNameStart {c : Char} (h : isNameStart c = true) : isNameChar c = true := by
  simp only [isNameStart, Bool.or_eq_true, Bool.and_eq_true, decide_eq_true_eq, beq_iff_eq] at h
  rw [isNameChar, Bool.or_eq_true]
  rcases h with h | h
  · refine .inl ?_
    simp only [isAsciiAlphanumeric, Bool.or_eq_true, Bool.and_eq_true, decide_eq_true_eq]
    omega
  · exact .inr (beq_iff_eq.mpr (Char.toNat_inj.mp h))

/-- The text ends in `rest`, and what stands in front of that could stand in an underlying type. -/
def SkipsTo (cs rest : List Char) : Prop :=
  ∃ front, front ++ rest = cs ∧ ∀ c ∈ front, isTypeChar c = true

namespace SkipsTo

variable {cs mid rest : List Char}

theorem refl (cs : List Char) : SkipsTo cs cs :=
  ⟨[], rfl, fun _ h => absurd h List.not_mem_nil⟩

theorem trans (h : SkipsTo cs mid) (h' : SkipsTo mid rest) : SkipsTo cs rest := by
  obtain ⟨as, rfl, ha⟩ := h
  obtain ⟨bs, rfl, hb⟩ := h'
  exact ⟨as ++ bs, by rw [List.append_assoc], List.forall_mem_append.mpr ⟨ha, hb⟩⟩

theorem trimStart (cs : List Char) : SkipsTo cs (trimStart cs) :=
  ⟨cs.takeWhile isBlank, List.takeWhile_append_dropWhile, fun c hc => by
    simp [isTypeChar, List.all_eq_true.mp List.all_takeWhile c hc]⟩

theorem afterWord? {word : String} (hw : ∀ c ∈ word.toList, isWordChar c = true)
    (h : afterWord? word cs = some rest) : SkipsTo cs rest :=
  ⟨word.toList, append_of_afterWord? h, fun c hc => by simp [isTypeChar, hw c hc]⟩

theorem skipScopeWord (cs : List Char) : SkipsTo cs (skipScopeWord cs) := by
  unfold Declaration.skipScopeWord
  split
  · next r h =>
    refine SkipsTo.trans ?_ (trimStart r)
    rcases Option.or_eq_some_iff.mp h with h | ⟨-, h⟩ <;> exact afterWord? (by decide) h
  · exact refl cs

theorem enumName (cs : List Char) : SkipsTo cs (enumName cs).2 := by
  unfold Declaration.enumName
  split
  · next w r h =>
    refine ⟨w, append_of_name? h, ?_⟩
    cases cs with
    | nil => cases h
    | cons c cs =>
      simp only [Text.name?] at h
      split at h
      · next hc =>
        cases h
        refine List.forall_mem_cons.mpr ⟨?_, fun d hd => ?_⟩
        · simp [isTypeChar, isWordChar_of_isNameChar (isNameChar_of_isNameStart hc)]
        · simp [isTypeChar, List.all_eq_true.mp List.all_takeWhile d hd]
      · cases h
  · exact refl cs

theorem skipUnderlying? (h : skipUnderlying? cs = some rest) : SkipsTo cs rest := by
  unfold Declaration.skipUnderlying? at h
  split at h
  · cases h
    exact refl []
  · next c r =>
    split at h
    · next hc =>
      split at h
      · cases h
      · cases h
        refine ⟨c :: r.takeWhile isTypeChar, ?_, List.forall_mem_cons.mpr ⟨?_, fun d hd =>
          List.all_eq_true.mp List.all_takeWhile d hd⟩⟩
        · rw [List.cons_append, List.takeWhile_append_dropWhile]
        · rw [hc]
          decide
    · cases h
      exact refl _

end SkipsTo

/-! ## Marks in a text -/

/-- The first of some marks parts a text in one way. -/
theorem append_mark_inj {mark : Char} {as as' bs bs' : List Char} (ha : mark ∉ as)
    (ha' : mark ∉ as') (h : as ++ mark :: bs = as' ++ mark :: bs') : as = as' ∧ bs = bs' := by
  induction as generalizing as' with
  | nil =>
    cases as' with
    | nil => exact ⟨rfl, (List.cons.inj h).2⟩
    | cons c as' => exact absurd (List.cons.inj h).1 fun he => ha' (he ▸ List.mem_cons_self)
  | cons c as ih =>
    cases as' with
    | nil => exact absurd (List.cons.inj h).1 fun he => ha (he ▸ List.mem_cons_self)
    | cons c' as' =>
      obtain ⟨rfl, htail⟩ := List.cons.inj h
      obtain ⟨rfl, hb⟩ := ih (fun hm => ha (List.mem_cons_of_mem _ hm))
        (fun hm => ha' (List.mem_cons_of_mem _ hm)) htail
      exact ⟨rfl, hb⟩

theorem append_mark_inj_right {mark : Char} {as as' bs bs' : List Char} (hb : mark ∉ bs)
    (hb' : mark ∉ bs') (h : as ++ mark :: bs = as' ++ mark :: bs') : as = as' ∧ bs = bs' := by
  have hrev := congrArg List.reverse h
  simp only [List.reverse_append, List.reverse_cons, List.append_assoc, List.singleton_append]
    at hrev
  obtain ⟨h1, h2⟩ := append_mark_inj (mt List.mem_reverse.mp hb)
    (mt List.mem_reverse.mp hb') hrev
  exact ⟨List.reverse_inj.mp h2, List.reverse_inj.mp h1⟩

/-! ## The layout of an enum -/

/-- The text is a head without braces, a body in braces, blanks, a semicolon, and what follows. -/
structure EnumLayout (cs head body gap rest : List Char) : Prop where
  text : cs = head ++ '\x7b' :: (body ++ '\x7d' :: (gap ++ ';' :: rest))
  isTypeChar_head : ∀ c ∈ head, isTypeChar c = true
  isBrace_body : ∀ c ∈ body, isBrace c = false
  isBlank_gap : ∀ c ∈ gap, isBlank c = true

theorem layout_of_enumDecl? {cs rest : List Char} {d : EnumDecl}
    (h : enumDecl? cs = some (d, rest)) : ∃ head body gap, EnumLayout cs head body gap rest ∧
      memberNames? (split ',' body) = some d.members := by
  simp only [enumDecl?, Option.bind_eq_bind, Option.bind_eq_some_iff, Option.some.injEq,
    Prod.mk.injEq] at h
  obtain ⟨c1, h1, c2, h2, c3, h3, c4, h4, c5, h5, members, hm, rfl, rfl⟩ := h
  have hhead : SkipsTo cs c2 :=
    (SkipsTo.afterWord? (by decide) h1).trans ((SkipsTo.trimStart c1).trans
      ((SkipsTo.skipScopeWord _).trans ((SkipsTo.enumName _).trans
        ((SkipsTo.trimStart _).trans (SkipsTo.skipUnderlying? h2)))))
  obtain ⟨head, rfl, hchars⟩ := hhead
  refine ⟨head, c3.takeWhile fun c => !isBrace c, c4.takeWhile isBlank, ⟨?_, hchars, fun c hc => ?_,
    fun c hc => List.all_eq_true.mp List.all_takeWhile c hc⟩, hm⟩
  · have htail : c4.takeWhile isBlank ++ ';' :: c5 = c4 := by
      rw [append_of_afterMark? h5]
      exact List.takeWhile_append_dropWhile
    rw [htail, append_of_afterMark? h4, List.takeWhile_append_dropWhile, append_of_afterMark? h3]
  · simpa using List.all_eq_true.mp List.all_takeWhile c hc

namespace EnumLayout

variable {cs ds head head' body body' gap gap' rest rest' : List Char}

theorem notMem_head (h : EnumLayout cs head body gap rest) {c : Char} (hc : isTypeChar c = false) :
    c ∉ head := fun hm => by
  rw [h.isTypeChar_head c hm] at hc
  cases hc

theorem notMem_body (h : EnumLayout cs head body gap rest) {c : Char} (hc : isBrace c = true) :
    c ∉ body := fun hm => by
  rw [h.isBrace_body c hm] at hc
  cases hc

theorem notMem_gap (h : EnumLayout cs head body gap rest) : ';' ∉ gap := fun hm =>
  absurd (h.isBlank_gap _ hm) (by decide)

/-- There is but one enum in front of a text and of what the text goes on with. -/
theorem unique (h : EnumLayout cs head body gap rest)
    (h' : EnumLayout (cs ++ ds) head' body' gap' rest') :
    head' = head ∧ body' = body ∧ gap' = gap ∧ rest' = rest ++ ds := by
  have htext := h'.text
  rw [h.text, List.append_assoc, List.cons_append, List.append_assoc, List.cons_append,
    List.append_assoc, List.cons_append] at htext
  obtain ⟨hhead, htext⟩ := append_mark_inj (h.notMem_head (by decide)) (h'.notMem_head (by decide))
    htext
  obtain ⟨hbody, htext⟩ := append_mark_inj (h.notMem_body (by decide)) (h'.notMem_body (by decide))
    htext
  obtain ⟨hgap, hrest⟩ := append_mark_inj h.notMem_gap h'.notMem_gap htext
  exact ⟨hhead.symm, hbody.symm, hgap.symm, hrest.symm⟩

end EnumLayout

/-- A part of a text holds no enum but that of the text. -/
theorem enumDecl?_append_rest {cs ds r r' : List Char} {d d' : EnumDecl}
    (h : enumDecl? (cs ++ ds) = some (d, r)) (h' : enumDecl? cs = some (d', r')) :
    r = r' ++ ds := by
  obtain ⟨_, _, _, hl, -⟩ := layout_of_enumDecl? h
  obtain ⟨_, _, _, hl', -⟩ := layout_of_enumDecl? h'
  exact (hl'.unique hl).2.2.2

/-! ## Joined lines -/

namespace State

/-- Lines are joined as long as the text is neither an enum nor a statement. -/
theorem gatherEnum_joined {d : EnumDecl} {n : Nat} {text rest : List Char}
    {ls : List SourceLine} (later : List SourceLine)
    (hpart : ∀ i < ls.length, enumDecl? (withLines text (ls.take i)) = none ∧
      afterStatement? (withLines text (ls.take i)) = none)
    (h : enumDecl? (withLines text ls) = some (d, rest)) :
    gatherEnum n text (ls ++ later) = ⟨.body d, rest, n + ls.length, later⟩ := by
  induction ls generalizing n text with
  | nil =>
    rw [gatherEnum.eq_def, show enumDecl? text = some (d, rest) from h]
    rfl
  | cons l ls ih =>
    obtain ⟨h1, h2⟩ := hpart 0 (Nat.succ_pos _)
    have hpart' : ∀ i < ls.length,
        enumDecl? (withLines (text ++ ' ' :: l.text) (ls.take i)) = none ∧
          afterStatement? (withLines (text ++ ' ' :: l.text) (ls.take i)) = none := fun i hi =>
      hpart (i + 1) (Nat.succ_lt_succ hi)
    rw [List.cons_append, gatherEnum.eq_def, show enumDecl? text = none from h1,
      show afterStatement? text = none from h2]
    simp only
    rw [ih hpart' h, List.length_cons, Nat.add_assoc, Nat.add_comm 1]

/-- An enum is found in the text with the lines that are joined to it. -/
theorem enumDecl?_of_gatherEnum {d : EnumDecl} {n : Nat} {text : List Char}
    {later : List SourceLine}
    (h : (gatherEnum n text later).found = .body d) :
    ∃ k, (gatherEnum n text later).merges = n + k ∧
      enumDecl? (withLines text (later.take k)) = some (d, (gatherEnum n text later).rest) := by
  fun_induction gatherEnum n text later with
  | case1 later n text decl rest hd =>
    cases h
    exact ⟨0, rfl, hd⟩
  | case2 => cases h
  | case3 => cases h
  | case4 n text _ _ l ls ih =>
    obtain ⟨k, hk, hd⟩ := ih h
    exact ⟨k + 1, by omega, hd⟩

end State

/-! ## The dispatch -/

/-- What begins with the word `enum` is matched as an enum where declarations are. -/
theorem match?_startsEnum {context : Context} {className : Option String} {cs : List Char}
    (hc : context.holdsDeclarations) (h : startsEnum cs = true) :
    Rule.match? context className cs = some (.enumHead, .enumHead, cs) := by
  obtain ⟨ts, hts⟩ := Rule.tokens_of_startsEnum h
  have hmark : afterMark? '#' cs = none := by
    obtain ⟨r, hr⟩ := Option.isSome_iff_exists.mp h
    rw [← append_of_afterWord? hr]
    rfl
  have hfirst : ∀ {t : Token} {us : List Token}, Token.tokens cs = t :: us → t.text = "enum" :=
    fun ht => by
      rw [hts] at ht
      cases ht
      rfl
  refine Rule.match?_of_recognize? ?_ (by rw [Rule.recognize?, if_pos h]) fun r hr _ => ?_
  · rcases hc with rfl | rfl <;> rfl
  have hlist : Rule.all.takeWhile (· ≠ .enumHead) =
    [.define, .directive, .access, .linkage, .nameSpace, .classHead] := rfl
  rw [hlist] at hr
  simp only [List.mem_cons, List.not_mem_nil, or_false] at hr
  rcases hr with rfl | rfl | rfl | rfl | rfl | rfl
  · simp only [Rule.recognize?, Rule.define?, hmark]
    rfl
  · simp only [Rule.recognize?, Rule.directive?, hmark]
    rfl
  · refine Option.not_isSome_iff_eq_none.mp fun ha => ?_
    obtain ⟨t, x, xs, ht, hmem, -⟩ := Rule.tokens_of_access? ha
    rw [hfirst ht] at hmem
    exact absurd hmem (by decide)
  · refine Option.not_isSome_iff_eq_none.mp fun hl => ?_
    obtain ⟨t, xs, ht, htext⟩ := Rule.tokens_of_linkage? hl
    exact absurd ((hfirst ht).symm.trans htext) (by decide)
  · refine Option.not_isSome_iff_eq_none.mp fun hn => ?_
    rcases Rule.tokens_of_nameSpace? hn with ⟨t, xs, ht, htext⟩ | ⟨x, xs, ht, -⟩
    · exact absurd ((hfirst ht).symm.trans htext) (by decide)
    · exact absurd (hfirst ht) (by decide)
  · rw [Rule.recognize?, Rule.readText, hts, classHead?_eq_none fun t ht => by cases ht; decide]
    rfl

end HeaderOutline
