import HeaderOutline.Declaration.Parameters
import HeaderOutline.Declaration.Tail
import HeaderOutline.Declaration.Template
/-!
# Functions, operators, constructors and destructors

A function is an optional template head, specifiers, a type, a qualified name, and a parameter list
with its tail. An operator has the word `operator` and a symbol for its name, a conversion operator
the word and a type, and it may lack the return type. A constructor is named as its class, and a
destructor bears a tilde. The text between `operator` and the parenthesis is kept as it stands: a
symbol loses its blanks, and a word keeps single ones.

Results: each reader takes at least one token and leaves an end of the tokens (`advances_function?`
and its like).
-/
namespace HeaderOutline.Declaration
open Text

/-- A declaration that has been read; `terminated` when a semicolon ended it. -/
structure Declared (α : Type) where
  item : α
  terminated : Bool
  deriving DecidableEq, Repr

/-! ## Pieces -/

/-- The words in front of a return type: whether `static` and `virtual` are among them, and the
rest. Mirrors `parse_specifiers`. -/
def specifiers (isStatic isVirtual : Bool) : List Token → (Bool × Bool) × List Token
  | [] => ((isStatic, isVirtual), [])
  | t :: ts =>
    if t.text = "static" then specifiers true isVirtual ts
    else if t.text = "virtual" then specifiers isStatic true ts
    else if t.text = "inline" ∨ t.text = "constexpr" ∨ t.text = "explicit" then
      specifiers isStatic isVirtual ts
    else ((isStatic, isVirtual), t :: ts)

theorem suffix_specifiers (isStatic isVirtual : Bool) (ts : List Token) :
    (specifiers isStatic isVirtual ts).2 <:+ ts := by
  fun_induction specifiers isStatic isVirtual ts with
  | case1 => exact List.suffix_refl _
  | case2 _ _ _ _ _ ih => exact ih.trans (List.suffix_cons ..)
  | case3 _ _ _ _ _ _ ih => exact ih.trans (List.suffix_cons ..)
  | case4 _ _ _ _ _ _ _ ih => exact ih.trans (List.suffix_cons ..)
  | case5 => exact List.suffix_refl _

/-- What stands in front of a return type: the template head and the specifiers. -/
structure Front where
  template : Option TemplateParams
  isStatic : Bool
  isVirtual : Bool
  deriving DecidableEq, Repr

/-- The template head and the specifiers of a declaration. -/
def front? (ts : List Token) : Option (Front × List Token) :=
  (templateHead? ts).map fun (template, behind) =>
    let ((isStatic, isVirtual), rest) := specifiers false false behind
    (⟨template, isStatic, isVirtual⟩, rest)

theorem suffix_of_front? {ts r : List Token} {f : Front} (h : front? ts = some (f, r)) :
    r <:+ ts := by
  unfold front? at h
  rw [Option.map_eq_some_iff] at h
  obtain ⟨⟨template, behind⟩, ht, heq⟩ := h
  simp only [Prod.mk.injEq] at heq
  exact heq.2 ▸ (suffix_specifiers false false behind).trans (suffix_of_templateHead? ht)

/-- The parameters behind an opening parenthesis, and the tail. -/
def parametersAndTail? (ts : List Token) : Option ((List Parameter × Tail) × List Token) := do
  let (params, ts) ← parameters? ts
  let (tail, ts) ← tail? ts
  some ((params, tail), ts)

theorem advances_parametersAndTail? : Advances parametersAndTail? := by
  intro ts r a h
  simp only [parametersAndTail?, Option.bind_eq_bind, Option.bind_eq_some_iff, Option.some.injEq,
    Prod.mk.injEq] at h
  obtain ⟨⟨params, r1⟩, h1, ⟨tail, r2⟩, h2, -, rfl⟩ := h
  have h3 := advances_parameters? h1
  have h4 := suffix_of_tail? h2
  exact ⟨h4.trans h3.1, by have := h4.length_le; simp only at *; omega⟩

/-- The signature made of its pieces. Mirrors `finish_signature`. -/
def assemble (front : Front) (returnType : Option TypeExpr) (name : String)
    (params : List Parameter) (tail : Tail) : Declared Signature :=
  ⟨⟨front.template, returnType, name, params, tail.isConst, front.isStatic, front.isVirtual,
    tail.specifier⟩, tail.terminated⟩

/-! ## Functions -/

/-- An ordinary function. Mirrors `recognize_function`. -/
def function? (ts : List Token) : Option (Declared Signature × List Token) := do
  let (front, ts) ← front? ts
  let (type, ts) ← type? ts
  let (name, ts) ← qualifiedName? ts
  let ts ← skip? "(" ts
  let ((params, tail), ts) ← parametersAndTail? ts
  some (assemble front (some type) name params tail, ts)

theorem advances_function? : Advances function? := by
  intro ts r a h
  simp only [function?, Option.bind_eq_bind, Option.bind_eq_some_iff, Option.some.injEq,
    Prod.mk.injEq] at h
  obtain ⟨⟨front, r1⟩, h1, ⟨type, r2⟩, h2, ⟨name, r3⟩, h3, r4, h4, ⟨⟨params, tail⟩, r5⟩, h5, -,
    rfl⟩ := h
  have h1 := suffix_of_front? h1
  have h2 := advances_type? h2
  have h3 := advances_qualifiedName? h3
  have h4 := suffix_of_skip? h4
  have h5 := advances_parametersAndTail? h5
  refine ⟨h5.1.trans (h4.1.trans (h3.1.trans (h2.1.trans h1))), ?_⟩
  have := h1.length_le
  simp only at *
  omega

/-- The call operator `operator()`. Mirrors `recognize_call_operator`. -/
def callOperator? (ts : List Token) : Option (Declared Signature × List Token) := do
  let (front, ts) ← front? ts
  let (type, ts) ← type? ts
  let ts ← skip? "operator" ts
  let ts ← skip? "(" ts
  let ts ← skip? ")" ts
  let ts ← skip? "(" ts
  let ((params, tail), ts) ← parametersAndTail? ts
  some (assemble front (some type) "operator()" params tail, ts)

theorem advances_callOperator? : Advances callOperator? := by
  intro ts r a h
  simp only [callOperator?, Option.bind_eq_bind, Option.bind_eq_some_iff, Option.some.injEq,
    Prod.mk.injEq] at h
  obtain ⟨⟨front, r1⟩, h1, ⟨type, r2⟩, h2, r3, h3, r4, h4, r5, h5, r6, h6, ⟨⟨params, tail⟩, r7⟩, h7,
    -, rfl⟩ := h
  have h1 := suffix_of_front? h1
  have h2 := advances_type? h2
  have h3 := suffix_of_skip? h3
  have h4 := suffix_of_skip? h4
  have h5 := suffix_of_skip? h5
  have h6 := suffix_of_skip? h6
  have h7 := advances_parametersAndTail? h7
  refine ⟨h7.1.trans (h6.1.trans (h5.1.trans (h4.1.trans (h3.1.trans (h2.1.trans h1))))), ?_⟩
  have := h1.length_le
  simp only at *
  omega

/-! ## Operators -/

/-- The tokens as they stand, with one blank for the spaces before each. -/
def spelled (ts : List Token) : List Char :=
  ts.flatMap fun t => (if t.spaced then [' '] else []) ++ t.text.toList

/-- The name of an operator from the tokens of its symbol. -/
def operatorName? (symbol : List Token) : Option String :=
  match words (spelled symbol) with
  | [] => none
  | w :: ws =>
    if w.head?.any TypeExpr.isIdentChar then
      some ("operator " ++ String.ofList ([' '].intercalate (w :: ws)))
    else some ("operator" ++ String.ofList (w :: ws).flatten)

/-- The return type of an operator, if the word `operator` follows one. -/
def operatorType (ts : List Token) : Option TypeExpr × List Token :=
  match type? ts with
  | some (type, rest) => if startsWith "operator" rest then (some type, rest) else (none, ts)
  | none => (none, ts)

theorem suffix_operatorType (ts : List Token) : (operatorType ts).2 <:+ ts := by
  unfold operatorType
  split
  · next h =>
    split
    · exact (advances_type? h).1
    · exact List.suffix_refl _
  · exact List.suffix_refl _

/-- Any operator but the call operator, with or without a return type. Mirrors
`recognize_operator`. -/
def operator? (ts : List Token) : Option (Declared Signature × List Token) := do
  let (front, ts) ← front? ts
  let (type, ts) := operatorType ts
  let ts ← skip? "operator" ts
  let name ← operatorName? (ts.takeWhile (·.text ≠ "("))
  let ts ← skip? "(" (ts.dropWhile (·.text ≠ "("))
  let ((params, tail), ts) ← parametersAndTail? ts
  some (assemble front type name params tail, ts)

theorem advances_operator? : Advances operator? := by
  intro ts r a h
  simp only [operator?, Option.bind_eq_bind, Option.bind_eq_some_iff, Option.some.injEq,
    Prod.mk.injEq] at h
  obtain ⟨⟨front, r1⟩, h1, r3, h3, name, -, r4, h4, ⟨⟨params, tail⟩, r5⟩, h5, -, rfl⟩ := h
  have h1 := suffix_of_front? h1
  have h2 := suffix_operatorType r1
  have h3 := suffix_of_skip? h3
  have h4 := suffix_of_skip? h4
  have h5 := advances_parametersAndTail? h5
  have h6 := List.dropWhile_suffix (l := r3) (fun t => decide (t.text ≠ "("))
  refine ⟨h5.1.trans (h4.1.trans (h6.trans (h3.1.trans (h2.trans h1)))), ?_⟩
  have := h1.length_le
  have := h2.length_le
  have := h6.length_le
  simp only at *
  omega

/-! ## Constructors and destructors -/

structure Constructor where
  name : String
  params : List Parameter
  deriving DecidableEq, Repr

/-- A constructor of the class `className`. Mirrors `recognize_constructor`. -/
def constructor? (className : String) (ts : List Token) :
    Option (Declared Constructor × List Token) := do
  let ts := ts.dropWhile fun t => t.text = "explicit" ∨ t.text = "inline" ∨ t.text = "constexpr"
  let (name, ts) ← (name? ts).filter (·.1 = className)
  let ts ← skip? "(" ts
  let ((params, tail), ts) ← parametersAndTail? ts
  some (⟨⟨name, params⟩, tail.terminated⟩, ts)

theorem advances_constructor? (className : String) : Advances (constructor? className) := by
  intro ts r a h
  simp only [constructor?, Option.bind_eq_bind, Option.bind_eq_some_iff, Option.some.injEq,
    Prod.mk.injEq, Option.filter_eq_some_iff] at h
  obtain ⟨⟨name, r1⟩, ⟨h1, -⟩, r2, h2, ⟨⟨params, tail⟩, r3⟩, h3, -, rfl⟩ := h
  have h0 := List.dropWhile_suffix (l := ts)
    (fun t => decide (t.text = "explicit" ∨ t.text = "inline" ∨ t.text = "constexpr"))
  have h1 := advances_name? h1
  have h2 := suffix_of_skip? h2
  have h3 := advances_parametersAndTail? h3
  refine ⟨h3.1.trans (h2.1.trans (h1.1.trans h0)), ?_⟩
  have := h0.length_le
  simp only at *
  omega

/-- A destructor; its name includes the tilde. Mirrors `recognize_destructor`. -/
def destructor? (ts : List Token) : Option (Declared String × List Token) := do
  let ts := ts.dropWhile fun t => t.text = "virtual" ∨ t.text = "inline"
  let ts ← skip? "~" ts
  let (name, ts) ← name? ts
  let ts ← skip? "(" ts
  let ts ← skip? ")" (skipOptional "void" ts)
  let (tail, ts) ← tail? ts
  some (⟨"~" ++ name, tail.terminated⟩, ts)

theorem advances_destructor? : Advances destructor? := by
  intro ts r a h
  simp only [destructor?, Option.bind_eq_bind, Option.bind_eq_some_iff, Option.some.injEq,
    Prod.mk.injEq] at h
  obtain ⟨r1, h1, ⟨name, r2⟩, h2, r3, h3, r4, h4, ⟨tail, r5⟩, h5, -, rfl⟩ := h
  have h0 := List.dropWhile_suffix (l := ts)
    (fun t => decide (t.text = "virtual" ∨ t.text = "inline"))
  have h1 := suffix_of_skip? h1
  have h2 := advances_name? h2
  have h3 := suffix_of_skip? h3
  have h4 := suffix_of_skip? h4
  have h5 := suffix_of_tail? h5
  have h6 := suffix_skipOptional "void" r3
  refine ⟨h5.trans (h4.1.trans (h6.trans (h3.1.trans (h2.1.trans (h1.1.trans h0))))), ?_⟩
  have := h0.length_le
  have := h5.length_le
  have := h6.length_le
  simp only at *
  omega

end HeaderOutline.Declaration
