import HeaderOutline.Declaration.Reader
import HeaderOutline.TypeExpr
/-!
# Types in declarations

A type is an optional `const`, then either words of built-in types or a qualified name with optional
template arguments, then any number of `*` and at most two `&`. A template argument is a number or a
type. The name must not begin with a reserved word; its later parts may be any names.

Results: `advances_type?`, a type takes at least one token and leaves an end of the tokens.
-/
namespace HeaderOutline.Declaration

/-! ## Qualified names -/

/-- The parts `::name` that follow a name. Mirrors the loop in `parse_qualified_name`. -/
def laterParts : List Token → String × List Token
  | c :: n :: ts =>
    if c.text = "::" ∧ n.isName then
      let (parts, rest) := laterParts ts
      ("::" ++ n.text ++ parts, rest)
    else ("", c :: n :: ts)
  | ts => ("", ts)

theorem suffix_laterParts (ts : List Token) : (laterParts ts).2 <:+ ts := by
  fun_induction laterParts ts with
  | case1 c n ts _ parts rest heq ih =>
    rw [heq] at ih
    exact ih.trans ((List.suffix_cons n ts).trans (List.suffix_cons c _))
  | case2 => exact List.suffix_refl _
  | case3 => exact List.suffix_refl _

/-- A name with `::` between its parts, and possibly in front. The first part is no reserved word.
Mirrors `parse_qualified_name`. -/
def qualifiedName? (ts : List Token) : Option (String × List Token) :=
  let root := if startsWith "::" ts then "::" else ""
  (freeName? (skipOptional "::" ts)).map fun (first, behind) =>
    let (parts, rest) := laterParts behind
    (root ++ first ++ parts, rest)

theorem advances_qualifiedName? : Advances qualifiedName? := by
  intro ts r a h
  unfold qualifiedName? at h
  rw [Option.map_eq_some_iff] at h
  obtain ⟨⟨first, behind⟩, hn, heq⟩ := h
  simp only [Prod.mk.injEq] at heq
  obtain ⟨-, rfl⟩ := heq
  have h1 := advances_freeName? hn
  have h2 := suffix_laterParts behind
  have h3 := suffix_skipOptional "::" ts
  exact ⟨h2.trans (h1.1.trans h3), by have := h2.length_le; have := h3.length_le; omega⟩

/-! ## The front of a type -/

/-- The words of a built-in type or the name of another one; the flag tells a built-in type. -/
def bareType? (ts : List Token) : Option ((List String × Bool) × List Token) :=
  match ts.takeWhile (isNative ·.text) with
  | [] => (qualifiedName? ts).map fun (name, behind) => (([name], false), behind)
  | t :: natives => some (((t :: natives).map (·.text), true), ts.dropWhile (isNative ·.text))

theorem advances_bareType? : Advances bareType? := by
  intro ts r a h
  unfold bareType? at h
  split at h
  · rw [Option.map_eq_some_iff] at h
    obtain ⟨⟨name, behind⟩, hn, heq⟩ := h
    simp only [Prod.mk.injEq] at heq
    exact heq.2 ▸ advances_qualifiedName? hn
  · next t natives heq =>
    simp only [Option.some.injEq, Prod.mk.injEq] at h
    obtain ⟨-, rfl⟩ := h
    refine ⟨List.dropWhile_suffix _, ?_⟩
    have h1 := congrArg List.length
      (List.takeWhile_append_dropWhile (p := fun t : Token => isNative t.text) (l := ts))
    rw [List.length_append, heq, List.length_cons] at h1
    omega

/-- What a type begins with, up to its template arguments: an optional `const` and a bare type. -/
def typeFront? (ts : List Token) : Option ((List String × Bool) × List Token) :=
  (bareType? (skipOptional "const" ts)).map fun ((texts, native), behind) =>
    ((if startsWith "const" ts then "const" :: texts else texts, native), behind)

theorem advances_typeFront? : Advances typeFront? := by
  intro ts r a h
  unfold typeFront? at h
  rw [Option.map_eq_some_iff] at h
  obtain ⟨⟨⟨texts, native⟩, behind⟩, hb, heq⟩ := h
  simp only [Prod.mk.injEq] at heq
  obtain ⟨-, rfl⟩ := heq
  have h1 := advances_bareType? hb
  have h2 := suffix_skipOptional "const" ts
  exact ⟨h1.1.trans h2, by have := h2.length_le; omega⟩

/-! ## The back of a type -/

def stars : List Token → List String × List Token
  | t :: ts =>
    if t.text = "*" then
      let (marks, rest) := stars ts
      ("*" :: marks, rest)
    else ([], t :: ts)
  | [] => ([], [])

theorem suffix_stars (ts : List Token) : (stars ts).2 <:+ ts := by
  fun_induction stars ts with
  | case1 t ts _ marks rest heq ih => rw [heq] at ih; exact ih.trans (List.suffix_cons t ts)
  | case2 => exact List.suffix_refl _
  | case3 => exact List.suffix_refl _

/-- At most `n` marks `&`. -/
def ampersands : Nat → List Token → List String × List Token
  | n + 1, t :: ts =>
    if t.text = "&" then
      let (marks, rest) := ampersands n ts
      ("&" :: marks, rest)
    else ([], t :: ts)
  | _, ts => ([], ts)

theorem suffix_ampersands (n : Nat) (ts : List Token) : (ampersands n ts).2 <:+ ts := by
  fun_induction ampersands n ts with
  | case1 n t ts _ marks rest heq ih => rw [heq] at ih; exact ih.trans (List.suffix_cons t ts)
  | case2 => exact List.suffix_refl _
  | case3 => exact List.suffix_refl _

/-- The pointer and reference marks at the end of a type. -/
def typeMarks (ts : List Token) : List String × List Token :=
  let (pointers, rest) := stars ts
  let (references, behind) := ampersands 2 rest
  (pointers ++ references, behind)

theorem suffix_typeMarks (ts : List Token) : (typeMarks ts).2 <:+ ts :=
  (suffix_ampersands 2 _).trans (suffix_stars ts)

/-! ## Types and template arguments -/

/-- What follows the angle bracket that opens template arguments. Built-in types take none. -/
def argumentsOf? (native : Bool) (ts : List Token) : Option (List Token) :=
  if native then none else skip? "<" ts

theorem suffix_of_argumentsOf? {native : Bool} {ts r : List Token}
    (h : argumentsOf? native ts = some r) : r <:+ ts ∧ r.length < ts.length := by
  unfold argumentsOf? at h
  split at h
  · cases h
  · exact suffix_of_skip? h

mutual

/-- A type. The tests on lengths always hold; they make the recursion well-founded. Mirrors
`parse_type`. -/
def type? (ts : List Token) : Option (TypeExpr × List Token) :=
  match typeFront? ts with
  | none => none
  | some ((front, native), behind) =>
    match argumentsOf? native behind with
    | none =>
      let (marks, rest) := typeMarks behind
      some (.ofTokens (front ++ marks), rest)
    | some inner =>
      if inner.length < ts.length then
        (arguments? inner).map fun (args, closed) =>
          let (marks, rest) := typeMarks closed
          (((TypeExpr.ofTokens (front ++ ["<"])).append (.ofGroups args)).append
            (.ofTokens (">" :: marks)), rest)
      else none
termination_by 4 * ts.length + 0

/-- Template arguments up to and with the closing angle bracket. -/
def arguments? (ts : List Token) : Option (List TypeExpr × List Token) :=
  match skip? ">" ts with
  | some rest => some ([], rest)
  | none => argumentList? ts
termination_by 4 * ts.length + 3

/-- At least one template argument, up to and with the closing angle bracket. Mirrors the loop over
arguments in `parse_type`. -/
def argumentList? (ts : List Token) : Option (List TypeExpr × List Token) :=
  match argument? ts with
  | none => none
  | some (arg, behind) =>
    match skip? "," behind with
    | some rest =>
      if rest.length < ts.length then
        (argumentList? rest).map fun (args, r) => (arg :: args, r)
      else none
    | none => (skip? ">" behind).map fun r => ([arg], r)
termination_by 4 * ts.length + 2

/-- A template argument: a number or a type. -/
def argument? (ts : List Token) : Option (TypeExpr × List Token) :=
  match ts with
  | [] => none
  | t :: rest => if t.isNumber then some (.ofTokens [t.text], rest) else type? (t :: rest)
termination_by 4 * ts.length + 1

end

/-- Types and template arguments take at least one token and leave an end of the tokens. -/
theorem advances_types :
    Advances type? ∧ Advances arguments? ∧ Advances argumentList? ∧ Advances argument? := by
  have key := type?.mutual_induct
    (fun ts => ∀ r a, type? ts = some (a, r) → r <:+ ts ∧ r.length < ts.length)
    (fun ts => ∀ r a, arguments? ts = some (a, r) → r <:+ ts ∧ r.length < ts.length)
    (fun ts => ∀ r a, argumentList? ts = some (a, r) → r <:+ ts ∧ r.length < ts.length)
    (fun ts => ∀ r a, argument? ts = some (a, r) → r <:+ ts ∧ r.length < ts.length)
    ?_ ?_ ?_ ?_ ?_ ?_ ?_ ?_ ?_ ?_ ?_ ?_ ?_
  · exact ⟨fun _ _ _ h => key.1 _ _ _ h, fun _ _ _ h => key.2.1 _ _ _ h,
      fun _ _ _ h => key.2.2.1 _ _ _ h, fun _ _ _ h => key.2.2.2 _ _ _ h⟩
  · intro ts hf r a h
    rw [type?, hf] at h
    cases h
  · intro ts front native behind hf ha marks rest hm r a h
    rw [type?, hf] at h
    simp only [ha, hm, Option.some.injEq, Prod.mk.injEq] at h
    obtain ⟨-, rfl⟩ := h
    have h1 := advances_typeFront? hf
    have h2 := suffix_typeMarks behind
    rw [hm] at h2
    exact ⟨h2.trans h1.1, by have := h2.length_le; simp only at this; omega⟩
  · intro ts front native behind hf inner ha hlt ih r a h
    rw [type?, hf] at h
    simp only [ha, hlt, if_true, Option.map_eq_some_iff, Prod.mk.injEq] at h
    obtain ⟨⟨args, closed⟩, hargs, -, rfl⟩ := h
    have h1 := advances_typeFront? hf
    have h2 := suffix_of_argumentsOf? ha
    have h3 := ih _ _ hargs
    have h4 := suffix_typeMarks closed
    have h5 := h4.length_le
    exact ⟨h4.trans (h3.1.trans (h2.1.trans h1.1)), by simp only; omega⟩
  · intro ts front native behind hf inner ha hlt r a h
    rw [type?, hf] at h
    simp only [ha, hlt, if_false, reduceCtorEq] at h
  · intro ts rest hs r a h
    rw [arguments?, hs] at h
    simp only [Option.some.injEq, Prod.mk.injEq] at h
    obtain ⟨-, rfl⟩ := h
    exact suffix_of_skip? hs
  · intro ts hs ih r a h
    rw [arguments?, hs] at h
    exact ih _ _ h
  · intro ts ha _ r a h
    rw [argumentList?, ha] at h
    cases h
  · intro ts arg behind ha rest hs hlt ih1 ih2 r a h
    rw [argumentList?, ha] at h
    simp only [hs, hlt, if_true, Option.map_eq_some_iff, Prod.mk.injEq] at h
    obtain ⟨⟨args, r'⟩, hargs, -, rfl⟩ := h
    have h1 := ih1 _ _ ha
    have h2 := suffix_of_skip? hs
    have h3 := ih2 _ _ hargs
    exact ⟨h3.1.trans (h2.1.trans h1.1), by simp only; omega⟩
  · intro ts arg behind ha rest hs hlt _ r a h
    rw [argumentList?, ha] at h
    simp only [hs, hlt, if_false, reduceCtorEq] at h
  · intro ts arg behind ha hs ih r a h
    rw [argumentList?, ha] at h
    simp only [hs, Option.map_eq_some_iff, Prod.mk.injEq] at h
    obtain ⟨r', hc, -, rfl⟩ := h
    have h1 := ih _ _ ha
    have h2 := suffix_of_skip? hc
    exact ⟨h2.1.trans h1.1, by omega⟩
  · intro r a h
    rw [argument?] at h
    cases h
  · intro t ts hn r a h
    rw [argument?, if_pos hn] at h
    simp only [Option.some.injEq, Prod.mk.injEq] at h
    obtain ⟨-, rfl⟩ := h
    exact ⟨List.suffix_cons t _, by simp⟩
  · intro t ts hn ih r a h
    rw [argument?, if_neg hn] at h
    exact ih _ _ h

theorem advances_type? : Advances type? :=
  advances_types.1

end HeaderOutline.Declaration
