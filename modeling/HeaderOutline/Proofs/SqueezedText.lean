import HeaderOutline.Declaration.EnumBody
import HeaderOutline.Proofs.Directives
import HeaderOutline.Proofs.LineTexts
/-!
# Squeezed texts

`squeeze` puts one space in place of each run of blanks. An enum is read alike before and after, for
its parts are told by words and marks, and blanks count only as something or nothing between these.
So how the words of an enum are laid out does not matter.

Results:
* `squeeze_trim`: a squeezed text without blanks at its ends is its words with spaces between them.
* `enumDecl?_squeeze`: the enum of a squeezed text.
* `enumDecl?_of_words`: two texts with the same words, neither with blanks at its ends.
-/
namespace HeaderOutline
open Text Declaration

/-- The text with a space for each run of blanks. With `behind`, a space that stands in front is the
one for the first blanks. -/
def squeezeFrom (behind : Bool) : List Char → List Char
  | [] => []
  | c :: r =>
    if isBlank c then (if behind then [] else [' ']) ++ squeezeFrom true r
    else c :: squeezeFrom false r

/-- The text with a space for each run of blanks. -/
def squeeze (cs : List Char) : List Char :=
  squeezeFrom false cs

variable {c : Char} {b : Bool}

@[simp] theorem squeeze_nil : squeeze [] = [] := rfl

theorem squeezeFrom_solid (hc : isBlank c = false) (b : Bool) (r : List Char) :
    squeezeFrom b (c :: r) = c :: squeeze r := by
  rw [squeezeFrom, hc]
  rfl

theorem squeezeFrom_blank (hc : isBlank c = true) (b : Bool) (r : List Char) :
    squeezeFrom b (c :: r) = (if b then [] else [' ']) ++ squeezeFrom true r := by
  rw [squeezeFrom, hc]
  rfl

theorem squeeze_solid (hc : isBlank c = false) (r : List Char) :
    squeeze (c :: r) = c :: squeeze r :=
  squeezeFrom_solid hc false r

theorem squeeze_blank (hc : isBlank c = true) (r : List Char) :
    squeeze (c :: r) = ' ' :: squeezeFrom true r :=
  squeezeFrom_blank hc false r

theorem isBlank_space : isBlank ' ' = true := by decide

@[simp] theorem isEmpty_squeeze (cs : List Char) : (squeeze cs).isEmpty = cs.isEmpty := by
  cases cs with
  | nil => rfl
  | cons c r =>
    cases hc : isBlank c with
    | true => rw [squeeze_blank hc]; rfl
    | false => rw [squeeze_solid hc]; rfl

/-! ## Trimming -/

/-- Behind its first blanks, what is in front of a text does not matter. -/
theorem trimStart_squeezeFrom (b : Bool) (cs : List Char) :
    trimStart (squeezeFrom b cs) = squeeze (trimStart cs) := by
  induction cs generalizing b with
  | nil => rfl
  | cons c r ih =>
    cases hc : isBlank c with
    | true =>
      rw [squeezeFrom_blank hc, trimStart_blank hc, ← ih true]
      cases b with
      | true => rfl
      | false => exact trimStart_blank isBlank_space _
    | false =>
      rw [squeezeFrom_solid hc, trimStart_cons hc, trimStart_cons hc, squeeze_solid hc]

theorem squeezeFrom_true (cs : List Char) : squeezeFrom true cs = squeeze (trimStart cs) := by
  rw [← trimStart_squeezeFrom true]
  induction cs with
  | nil => rfl
  | cons c r ih =>
    cases hc : isBlank c with
    | true => rw [squeezeFrom_blank hc]; exact ih
    | false => rw [squeezeFrom_solid hc, trimStart_cons hc]

theorem trimStart_squeeze (cs : List Char) : trimStart (squeeze cs) = squeeze (trimStart cs) :=
  trimStart_squeezeFrom false cs

theorem trimEnd_cons_blank (hc : isBlank c = true) (cs : List Char) :
    trimEnd (c :: cs) = if (trimEnd cs).isEmpty then [] else c :: trimEnd cs := by
  have h := trimEnd_append [c] cs
  rw [show trimEnd [c] = [] by simp [trimEnd, trimStart, hc]] at h
  exact h

theorem trimEnd_squeezeFrom (b : Bool) (cs : List Char) :
    trimEnd (squeezeFrom b cs) = squeezeFrom b (trimEnd cs) ∧
      (squeezeFrom b (trimEnd cs)).isEmpty = (trimEnd cs).isEmpty := by
  induction cs generalizing b with
  | nil => exact ⟨rfl, rfl⟩
  | cons c r ih =>
    cases hc : isBlank c with
    | true =>
      obtain ⟨ih1, ih2⟩ := ih true
      rw [squeezeFrom_blank hc, trimEnd_cons_blank hc]
      cases hr : (trimEnd r).isEmpty with
      | true =>
        rw [List.isEmpty_iff.mp hr] at ih1
        cases b with
        | true => exact ⟨ih1, rfl⟩
        | false =>
          refine ⟨?_, rfl⟩
          rw [if_neg Bool.false_ne_true, List.singleton_append, trimEnd_cons_blank isBlank_space,
            ih1]
          rfl
      | false =>
        rw [hr] at ih2
        rw [if_neg Bool.false_ne_true, squeezeFrom_blank hc, ← ih1]
        cases b with
        | true => exact ⟨rfl, by rw [ih1]; exact ih2⟩
        | false =>
          rw [if_neg Bool.false_ne_true, List.singleton_append, trimEnd_cons_blank isBlank_space,
            ih1, ih2]
          exact ⟨rfl, rfl⟩
    | false =>
      rw [squeezeFrom_solid hc, trimEnd_cons hc, trimEnd_cons hc, squeezeFrom_solid hc,
        squeeze, (ih false).1]
      exact ⟨rfl, rfl⟩

theorem trim_squeeze (cs : List Char) : trim (squeeze cs) = squeeze (trim cs) := by
  rw [trim, trimStart_squeeze, squeeze, (trimEnd_squeezeFrom false _).1]
  rfl

/-! ## Parts of a text -/

theorem takeWhile_squeeze {p : Char → Bool} (hp : ∀ c, isBlank c = true → p c = false)
    (cs : List Char) : (squeeze cs).takeWhile p = cs.takeWhile p ∧
      (squeeze cs).dropWhile p = squeeze (cs.dropWhile p) := by
  induction cs with
  | nil => exact ⟨rfl, rfl⟩
  | cons c r ih =>
    cases hc : isBlank c with
    | true => simp [squeeze_blank hc, hp c hc, hp ' ' isBlank_space]
    | false =>
      rw [squeeze_solid hc, List.takeWhile_cons, List.takeWhile_cons, List.dropWhile_cons,
        List.dropWhile_cons, ih.1, ih.2]
      split
      · exact ⟨rfl, rfl⟩
      · exact ⟨rfl, (squeeze_solid hc r).symm⟩

theorem takeWhile_squeezeFrom {p : Char → Bool} (hp : ∀ c, isBlank c = true → p c = true)
    (b : Bool) (cs : List Char) : (squeezeFrom b cs).takeWhile p = squeezeFrom b (cs.takeWhile p) ∧
      (squeezeFrom b cs).dropWhile p = squeeze (cs.dropWhile p) := by
  induction cs generalizing b with
  | nil => exact ⟨rfl, rfl⟩
  | cons c r ih =>
    cases hc : isBlank c with
    | true =>
      rw [List.takeWhile_cons, List.dropWhile_cons, hp c hc, if_pos rfl, if_pos rfl,
        squeezeFrom_blank hc, squeezeFrom_blank hc]
      cases b <;> simp [hp ' ' isBlank_space, ih true]
    | false =>
      rw [squeezeFrom_solid hc, List.takeWhile_cons, List.takeWhile_cons, List.dropWhile_cons,
        List.dropWhile_cons, squeeze, (ih false).1, (ih false).2]
      split
      · exact ⟨(squeezeFrom_solid hc b _).symm, rfl⟩
      · exact ⟨rfl, (squeeze_solid hc r).symm⟩

theorem split_squeezeFrom {mark : Char} (hm : isBlank mark = false) (b : Bool) {cs i : List Char}
    {is : List (List Char)} (h : split mark cs = i :: is) :
    split mark (squeezeFrom b cs) = squeezeFrom b i :: is.map squeeze := by
  induction cs generalizing b i is with
  | nil => cases h; rfl
  | cons c r ih =>
    obtain ⟨p, ps, hps⟩ := List.exists_cons_of_ne_nil (split_ne_nil mark r)
    have hspace : ' ' ≠ mark := fun he => by rw [← he] at hm; exact absurd hm (by decide)
    rw [split] at h
    split at h
    · next hcm =>
      cases h
      rw [squeezeFrom_solid (hcm ▸ hm), split, if_pos hcm, squeeze, ih false hps, hps]
      rfl
    · next hcm =>
      rw [hps] at h
      cases h
      cases hc : isBlank c with
      | true =>
        rw [squeezeFrom_blank hc, squeezeFrom_blank hc]
        cases b with
        | true => exact ih true hps
        | false =>
          rw [if_neg Bool.false_ne_true, List.singleton_append, split, if_neg hspace, ih true hps]
          rfl
      | false =>
        rw [squeezeFrom_solid hc, squeezeFrom_solid hc, split, if_neg hcm, squeeze, ih false hps]
        rfl

theorem split_squeeze {mark : Char} (hm : isBlank mark = false) (cs : List Char) :
    split mark (squeeze cs) = (split mark cs).map squeeze := by
  obtain ⟨i, is, h⟩ := List.exists_cons_of_ne_nil (split_ne_nil mark cs)
  rw [h, squeeze, split_squeezeFrom hm false h]
  rfl

/-! ## Words and marks in front -/

theorem afterMark?_squeeze {mark : Char} (hm : isBlank mark = false) (cs : List Char) :
    afterMark? mark (squeeze cs) = (afterMark? mark cs).map squeeze := by
  cases cs with
  | nil => rfl
  | cons c r =>
    cases hc : isBlank c with
    | true =>
      have h1 : c ≠ mark := fun he => by rw [he, hm] at hc; cases hc
      have h2 : ' ' ≠ mark := fun he => by rw [← he] at hm; exact absurd hm (by decide)
      simp [squeeze_blank hc, afterMark?, h1, h2]
    | false =>
      rw [squeeze_solid hc, afterMark?, afterMark?]
      split <;> rfl

theorem isPrefixOf_squeeze {w : List Char} (hw : ∀ c ∈ w, isBlank c = false) (cs : List Char) :
    w.isPrefixOf (squeeze cs) = w.isPrefixOf cs ∧
      (w.isPrefixOf cs = true → (squeeze cs).drop w.length = squeeze (cs.drop w.length)) := by
  induction w generalizing cs with
  | nil => exact ⟨by simp, fun _ => rfl⟩
  | cons d w ih =>
    obtain ⟨hd, hw⟩ := List.forall_mem_cons.mp hw
    cases cs with
    | nil => exact ⟨rfl, fun h => by cases h⟩
    | cons c r =>
      cases hc : isBlank c with
      | true =>
        have h1 : d ≠ c := fun he => by rw [he, hc] at hd; cases hd
        have h2 : d ≠ ' ' := fun he => by rw [he] at hd; exact absurd hd (by decide)
        have h3 : (d :: w).isPrefixOf (c :: r) = false := by
          rw [List.isPrefixOf, beq_false_of_ne h1, Bool.false_and]
        rw [squeeze_blank hc, h3, List.isPrefixOf, beq_false_of_ne h2, Bool.false_and]
        exact ⟨rfl, fun h => by cases h⟩
      | false =>
        obtain ⟨ih1, ih2⟩ := ih hw r
        rw [squeeze_solid hc, List.isPrefixOf, List.isPrefixOf, ih1]
        exact ⟨rfl, fun h => ih2 (Bool.and_eq_true _ _ ▸ h).2⟩

theorem after?_squeeze {word : String} (hw : ∀ c ∈ word.toList, isBlank c = false)
    (cs : List Char) : after? word (squeeze cs) = (after? word cs).map squeeze := by
  obtain ⟨h1, h2⟩ := isPrefixOf_squeeze hw cs
  rw [after?, after?, h1]
  split
  · next h => rw [h2 h]; rfl
  · rfl

theorem startsWord_squeeze (cs : List Char) : startsWord (squeeze cs) = startsWord cs := by
  cases cs with
  | nil => rfl
  | cons c r =>
    cases hc : isBlank c with
    | true =>
      have hw : isWordChar c = false := Bool.eq_false_iff.mpr fun h => by
        rw [isBlank_of_isWordChar h] at hc
        cases hc
      simp only [squeeze_blank hc, startsWord, List.head?_cons, Option.any_some, hw]
      rfl
    | false => rw [squeeze_solid hc]; rfl

theorem afterWord?_squeeze {word : String} (hw : ∀ c ∈ word.toList, isBlank c = false)
    (cs : List Char) : afterWord? word (squeeze cs) = (afterWord? word cs).map squeeze := by
  rw [afterWord?, afterWord?, after?_squeeze hw]
  cases after? word cs with
  | none => rfl
  | some r =>
    simp only [Option.map_some, Option.filter_some, startsWord_squeeze]
    split <;> rfl

theorem isBlank_of_isNameStart (h : isNameStart c = true) : isBlank c = false := by
  simp only [isNameStart, Bool.or_eq_true, Bool.and_eq_true, decide_eq_true_eq, beq_iff_eq] at h
  simp only [isBlank, Bool.or_eq_false_iff, Bool.and_eq_false_iff, beq_eq_false_iff_ne,
    decide_eq_false_iff_not]
  omega

theorem name?_squeeze (cs : List Char) :
    Text.name? (squeeze cs) = (Text.name? cs).map fun p => (p.1, squeeze p.2) := by
  cases cs with
  | nil => rfl
  | cons c r =>
    cases hc : isBlank c with
    | true =>
      have hn : isNameStart c = false := Bool.eq_false_iff.mpr fun h => by
        rw [isBlank_of_isNameStart h] at hc
        cases hc
      rw [squeeze_blank hc, Text.name?, Text.name?, if_neg (by decide), hn]
      rfl
    | false =>
      obtain ⟨h1, h2⟩ := takeWhile_squeeze (p := isWordChar) (fun c hc => by
        refine Bool.eq_false_iff.mpr fun h => ?_
        rw [isBlank_of_isWordChar h] at hc
        cases hc) r
      rw [squeeze_solid hc, Text.name?, Text.name?, h1, h2]
      split <;> rfl

/-! ## Enums -/

theorem skipScopeWord_squeeze (cs : List Char) :
    skipScopeWord (squeeze cs) = squeeze (skipScopeWord cs) := by
  rw [skipScopeWord, skipScopeWord, afterWord?_squeeze (by decide), afterWord?_squeeze (by decide),
    ← Option.map_or]
  cases (afterWord? "class" cs).or (afterWord? "struct" cs) with
  | none => rfl
  | some r => exact trimStart_squeeze r

theorem enumName_squeeze (cs : List Char) :
    enumName (squeeze cs) = ((enumName cs).1, squeeze (enumName cs).2) := by
  rw [enumName, enumName, name?_squeeze]
  cases Text.name? cs <;> rfl

theorem skipUnderlying?_squeeze (cs : List Char) :
    skipUnderlying? (squeeze cs) = (skipUnderlying? cs).map squeeze := by
  cases cs with
  | nil => rfl
  | cons c r =>
    cases hc : isBlank c with
    | true =>
      have h1 : c ≠ ':' := by rintro rfl; revert hc; decide
      rw [skipUnderlying?, if_neg h1, Option.map_some, squeeze_blank hc, skipUnderlying?,
        if_neg (by decide)]
    | false =>
      obtain ⟨h1, h2⟩ := takeWhile_squeezeFrom (p := isTypeChar)
        (fun c hc => by simp [isTypeChar, hc]) false r
      rw [squeeze_solid hc, skipUnderlying?, skipUnderlying?, squeeze, h1, h2]
      rw [show (squeezeFrom false (r.takeWhile isTypeChar)).isEmpty = _ from isEmpty_squeeze _]
      split
      · split <;> rfl
      · rw [Option.map_some, squeeze_solid hc]
        rfl

theorem memberName?_squeeze (item : List Char) :
    memberName? (squeeze item) = memberName? item := by
  rw [memberName?, memberName?, name?_squeeze]
  cases Text.name? item with
  | none => rfl
  | some p =>
    simp only [Option.map_some, trimStart_squeeze]
    rcases trimStart_eq_nil_or p.2 with h | ⟨c, r, h, hc⟩
    · rw [h]
      rfl
    · rw [h, squeeze_solid hc]

theorem memberNames?_squeeze (items : List (List Char)) :
    memberNames? (items.map squeeze) = memberNames? items := by
  fun_induction memberNames? items with
  | case1 => rfl
  | case2 last h => simp [memberNames?, trim_squeeze, h]
  | case3 last h => simp [memberNames?, trim_squeeze, h, memberName?_squeeze]
  | case4 item items hne h =>
    cases items with
    | nil => exact absurd rfl hne
    | cons i is => simp [memberNames?, trim_squeeze, memberName?_squeeze, h]
  | case5 item items hne name h ih =>
    cases items with
    | nil => exact absurd rfl hne
    | cons i is =>
      rw [List.map_cons] at ih
      simp [memberNames?, trim_squeeze, memberName?_squeeze, h, ih]

/-- The enum of a squeezed text, and what follows it. -/
theorem enumDecl?_squeeze (cs : List Char) :
    enumDecl? (squeeze cs) = (enumDecl? cs).map fun p => (p.1, squeeze p.2) := by
  simp only [enumDecl?, Option.bind_eq_bind]
  rw [afterWord?_squeeze (by decide)]
  cases afterWord? "enum" cs with
  | none => rfl
  | some c1 =>
    simp only [Option.map_some, Option.bind_some, trimStart_squeeze, skipScopeWord_squeeze,
      enumName_squeeze, skipUnderlying?_squeeze]
    cases skipUnderlying? (trimStart (enumName (skipScopeWord (trimStart c1))).2) with
    | none => rfl
    | some c2 =>
      simp only [Option.map_some, Option.bind_some]
      rw [afterMark?_squeeze (by decide)]
      cases afterMark? '\x7b' c2 with
      | none => rfl
      | some c3 =>
        have hbody : ∀ c, isBlank c = true → (!isBrace c) = true := fun c hc => by
          have h1 : c ≠ '\x7b' := by rintro rfl; revert hc; decide
          have h2 : c ≠ '\x7d' := by rintro rfl; revert hc; decide
          simp [isBrace, h1, h2]
        obtain ⟨h1, h2⟩ := takeWhile_squeezeFrom hbody false c3
        simp only [squeeze, Option.map_some, Option.bind_some, h1, h2]
        rw [← squeeze, ← squeeze, afterMark?_squeeze (by decide), split_squeeze (by decide),
          memberNames?_squeeze]
        cases afterMark? '\x7d' (c3.dropWhile fun c => !isBrace c) with
        | none => rfl
        | some c4 =>
          simp only [Option.map_some, Option.bind_some, trimStart_squeeze]
          rw [afterMark?_squeeze (by decide)]
          cases afterMark? ';' (trimStart c4) with
          | none => rfl
          | some c5 =>
            simp only [Option.map_some, Option.bind_some]
            cases memberNames? (split ',' (c3.takeWhile fun c => !isBrace c)) <;> rfl

/-! ## Words -/

theorem solid_of_noBlank {w : List Char} (hne : w ≠ []) (hw : ∀ c ∈ w, isBlank c = false) :
    Solid w where
  head := by
    obtain ⟨c, r, rfl⟩ := List.exists_cons_of_ne_nil hne
    exact ⟨c, r, rfl, hw c List.mem_cons_self⟩
  last := by
    obtain ⟨r, c, rfl⟩ := (List.eq_nil_or_concat' w).resolve_left hne
    exact ⟨r, c, rfl, hw c (by simp)⟩
  noBreak := fun hm => ne_newline (hw _ hm) rfl

theorem squeeze_words {w : List Char} (hw : ∀ c ∈ w, isBlank c = false) (cs : List Char) :
    squeeze (w ++ cs) = w ++ squeeze cs := by
  induction w with
  | nil => rfl
  | cons c w ih =>
    obtain ⟨hc, hw⟩ := List.forall_mem_cons.mp hw
    rw [List.cons_append, squeeze_solid hc, ih hw, List.cons_append]

/-- What is blank from the first to the last is blank from the last to the first. -/
theorem trimEnd_eq_nil {cs : List Char} (h : trim cs = []) : trimEnd cs = [] := by
  by_contra hne
  obtain ⟨r, c, hr, hc⟩ := trimEnd_last hne
  rw [← trimStart_trimEnd, hr, trimStart_append hc] at h
  exact absurd h (by simp)

theorem words_eq_nil_iff (cs : List Char) : words cs = [] ↔ trim cs = [] := by
  fun_induction words cs with
  | case1 => exact ⟨fun _ => rfl, fun _ => rfl⟩
  | case2 c r hc ih => rw [trim_blank hc, ih]
  | case3 c r hc ih =>
    rw [trim, trimStart_cons (by simpa using hc), trimEnd_cons (by simpa using hc)]
    exact ⟨fun h => absurd h (List.cons_ne_nil _ _), fun h => absurd h (List.cons_ne_nil _ _)⟩

/-- A text without blanks at its ends is squeezed to its words with spaces between them. -/
theorem squeeze_trim (cs : List Char) : squeeze (trim cs) = [' '].intercalate (words cs) := by
  fun_induction words cs with
  | case1 => rfl
  | case2 c r hc ih => rw [trim_blank hc, ih]
  | case3 c r hc ih =>
    have hc : isBlank c = false := by simpa using hc
    have hw : ∀ d ∈ c :: r.takeWhile (fun x => !isBlank x), isBlank d = false :=
      List.forall_mem_cons.mpr ⟨hc, fun d hd => by
        simpa using List.all_eq_true.mp List.all_takeWhile d hd⟩
    have hsplit :
        c :: r = (c :: r.takeWhile fun x => !isBlank x) ++ r.dropWhile fun x => !isBlank x := by
      rw [List.cons_append, List.takeWhile_append_dropWhile]
    have hhead := List.head?_dropWhile_not (fun x => !isBlank x) r
    rw [hsplit]
    generalize hword : (c :: r.takeWhile fun x => !isBlank x) = w at hw
    generalize (r.dropWhile fun x => !isBlank x) = rest at ih hhead
    have hsolid : Solid w := solid_of_noBlank (by rw [← hword]; simp) hw
    rw [hsolid.trim_append, squeeze_words hw]
    cases rest with
    | nil => simp [words, trimEnd, trimStart]
    | cons b rest =>
      have hb : isBlank b = true := by simpa using hhead
      cases hws : words (b :: rest) with
      | nil =>
        rw [trimEnd_eq_nil ((words_eq_nil_iff _).mp hws)]
        simp
      | cons v ws =>
        have hne : (trimEnd rest).isEmpty = false := Bool.eq_false_iff.mpr fun h => by
          have hnil := (words_eq_nil_iff (b :: rest)).mpr
            (by rw [trim_blank hb, ← trimStart_trimEnd, List.isEmpty_iff.mp h]; rfl)
          rw [hws] at hnil
          cases hnil
        rw [trim_blank hb, hws] at ih
        rw [trimEnd_cons_blank hb, hne, if_neg Bool.false_ne_true, squeeze_blank hb,
          squeezeFrom_true, trimStart_trimEnd, ih, List.intercalate_cons_cons, List.append_assoc]
        rfl

/-- Two texts with the same words, neither with blanks at its ends, hold the same enum. -/
theorem enumDecl?_of_words {cs ds : List Char} {d : EnumDecl} (hcs : trim cs = cs)
    (hds : trim ds = ds) (hw : words ds = words cs) (h : enumDecl? cs = some (d, [])) :
    enumDecl? ds = some (d, []) := by
  have hsqueeze : squeeze ds = squeeze cs := by
    rw [← hcs, ← hds, squeeze_trim, squeeze_trim, hw]
  have h1 := enumDecl?_squeeze cs
  rw [← hsqueeze, enumDecl?_squeeze, h] at h1
  obtain ⟨⟨d', r⟩, h2, h3⟩ := Option.map_eq_some_iff.mp h1
  obtain ⟨rfl, hr⟩ := Prod.mk.inj h3
  have hr := congrArg List.isEmpty hr
  rw [isEmpty_squeeze] at hr
  obtain rfl : r = [] := List.isEmpty_iff.mp hr
  exact h2

end HeaderOutline
