import HeaderOutline.Proofs.BlindReaders
import HeaderOutline.Proofs.InterfaceReading
/-!
# Default values are transparent

A parameter may be given a default value, and the function is read as it was: the reader of default
values takes everything up to the comma or parenthesis behind it. Round, square and curly brackets
are counted on the way, and angle brackets are not, which between values may be comparisons. So the
commas of a value have to stand in brackets; one between template arguments ends the value, and what
follows it is taken for a parameter (`function_refused_comma`).

What the reader of a parameter does in front of the value, it does whatever follows, as it is blind
to the end that it leaves (`Blind.typed?`). The same holds of what stands in front of the parameter
list (`Blind.declarator?`).

Results:
* `parameter?_added`, `AddsDefaults.commaList`: a parameter, and a list of them.
* `function_defaults_added`: a function in a text.
* `defaultsAdded_self`: every function with parameters has places for default values.
-/
namespace HeaderOutline
open Text Declaration Token

/-! ## Additions -/

/-- The tokens may stand as a default value: their brackets are balanced, and their commas stand in
brackets. -/
structure DefaultValue (e : List Token) : Prop where
  ne_nil : e ≠ []
  closed : closesValue 0 (e.map Token.bare) = true

def variadic : Parameter :=
  ⟨.ofTokens ["..."], none⟩

/-- What may be added behind a parameter: nothing, or an equals sign and a default value, which
`...` cannot have. -/
inductive Addition (p : Parameter) : List Token → Prop
  | nothing : Addition p []
  | value {equals : Token} {e : List Token} : p ≠ variadic → equals.bare = .mark "=" →
      DefaultValue e → Addition p (equals :: e)

/-- The tokens `us` are those of a parameter list, `ts`, with default values added to some of its
parameters. The list goes up to its closing parenthesis, and something may follow it. Each of its
parameters ends where the reader of parameters stops, and what is added stands there. -/
inductive AddsDefaults : List Parameter → List Token → List Token → Prop
  | last {p : Parameter} {item added rest : List Token} {close close' : Token} :
      parameter? (item ++ close :: rest) = some (p, close :: rest) → Addition p added →
      close.bare = .mark ")" → close'.bare = .mark ")" →
      AddsDefaults [p] (item ++ close :: rest) (item ++ (added ++ close' :: rest))
  | more {p : Parameter} {ps : List Parameter} {item added ts us : List Token}
      {comma comma' : Token} :
      parameter? (item ++ comma :: ts) = some (p, comma :: ts) → Addition p added →
      comma.bare = .mark "," → comma'.bare = .mark "," → AddsDefaults ps ts us →
      AddsDefaults (p :: ps) (item ++ comma :: ts) (item ++ (added ++ comma' :: us))

/-- What stands in front of the parameters of a function. -/
def declarator? (ts : List Token) : Option ((Front × TypeExpr × String) × List Token) :=
  (front? ts).bind fun x => (type? x.2).bind fun y => (qualifiedName? y.2).map fun z =>
    ((x.1, y.1, z.1), z.2)

/-- The tokens behind the opening parenthesis of a function. -/
def listTokens? (ts : List Token) : Option (List Token) :=
  (declarator? ts).bind fun x => skip? "(" x.2

/-- The text `ds` has the tokens of `cs`, with default values added to some of the parameters `ps`
of the function that `cs` begins with. -/
def DefaultsAdded (ps : List Parameter) (cs ds : List Char) : Prop :=
  ∃ head ts us, tokens cs = head ++ ts ∧ tokens ds = head ++ us ∧
    listTokens? (tokens cs) = some ts ∧ AddsDefaults ps ts us

section

variable {p : Parameter} {ps : List Parameter} {x y z item added ts us r : List Token} {t : Token}

/-! ## Values are skipped -/

theorem endsItem_of_bare {mark : String} (hm : mark ∈ [",", ")"]) (h : t.bare = .mark mark)
    (ts : List Token) : EndsItem ")" (t :: ts) :=
  ⟨mark, hm, ts, [], h ▸ .cons t .nil⟩

theorem EndsItem.exists_cons (h : EndsItem ")" x) :
    ∃ t r, x = t :: r ∧ t.kind = .mark ∧ (t.text = "," ∨ t.text = ")") := by
  obtain ⟨mark, hm, rest, ls, hs⟩ := h
  obtain ⟨t, r, rfl, hk, ht, -⟩ := hs.uncons
  have ht : t.text = mark := ht
  simp only [List.mem_cons, List.not_mem_nil, or_false] at hm
  exact ⟨t, r, rfl, hk, ht ▸ hm⟩

/-- What a token in front does in a parameter list, where angle brackets do not count. -/
theorem skipDefault_cons_list (nesting : Nat) (t : Token) (ts : List Token) :
    skipDefault ")" nesting 0 (t :: ts) =
      if isOpening t.text then skipDefault ")" (nesting + 1) 0 ts
      else if isClosing t.text ∧ 0 < nesting then skipDefault ")" (nesting - 1) 0 ts
      else if t.text = ")" ∨ nesting = 0 ∧ t.text = "," then t :: ts
      else skipDefault ")" nesting 0 ts := by
  rw [skipDefault]
  by_cases hparen : t.text = ")"
  · simp [hparen]
  · simp [hparen]

/-- A value that ends where the end `x` begins goes on into what stands there instead. -/
theorem skipDefault_exchange {nesting : Nat} (hx : EndsItem ")" x) (z : List Token)
    (h : skipDefault ")" nesting 0 (item ++ x) = x) :
    skipDefault ")" nesting 0 (item ++ z) = skipDefault ")" 0 0 z := by
  induction item generalizing nesting with
  | nil =>
    obtain ⟨t, r, rfl, -, ht⟩ := hx.exists_cons
    have hshort : ∀ n, skipDefault ")" n 0 r ≠ t :: r := fun n he => by
      have := (suffix_skipDefault ")" n 0 r).length_le
      rw [he, List.length_cons] at this
      omega
    -- Inside brackets the end would be taken too.
    have hzero : nesting = 0 := by
      by_contra hne
      rw [List.nil_append, skipDefault_cons_list] at h
      rcases ht with ht | ht <;>
        simp [ht, isOpening, isClosing, hne, Nat.pos_of_ne_zero hne, hshort] at h
    rw [hzero, List.nil_append]
  | cons t item ih =>
    have hlong : t :: (item ++ x) ≠ x := fun he => by
      have := congrArg List.length he
      simp at this
      omega
    rw [List.cons_append, skipDefault_cons_list] at h ⊢
    split at h
    · next ho => rw [if_pos ho, ih h]
    · next ho =>
      rw [if_neg ho]
      split at h
      · next hc => rw [if_pos hc, ih h]
      · next hc =>
        rw [if_neg hc]
        split at h
        · exact absurd h hlong
        · next hend => rw [if_neg hend, ih h]

theorem skipDefault_value_tokens {e : List Token} (he : DefaultValue e) (hy : EndsItem ")" y) :
    skipDefault ")" 0 0 (e ++ y) = y :=
  skipDefault_value (spells_bare y e) he.closed hy

theorem Addition.skipDefault (h : Addition p added) (hy : EndsItem ")" y) :
    skipDefault ")" 0 0 (added ++ y) = y := by
  cases h with
  | nothing => exact skipDefault_value (spells_bare y []) rfl hy
  | @value equals e _ heq he =>
    have ht : equals.text = "=" := congrArg Lexeme.text heq
    rw [List.cons_append, skipDefault_cons_list, ht, if_neg (by decide), if_neg (by decide),
      if_neg (by decide), skipDefault_value_tokens he hy]

theorem Addition.skipAssigned (h : Addition p added) (hy : EndsItem ")" y) :
    skipAssigned ")" (added ++ y) = y := by
  cases h with
  | nothing => exact hy.skipAssigned (by decide) ")"
  | @value equals e _ heq he =>
    have ht : equals.text = "=" := congrArg Lexeme.text heq
    simp only [List.cons_append, Declaration.skipAssigned, skip?, ht, if_true,
      skipDefault_value_tokens he hy]

/-- What is added behind a parameter is skipped with the default value that it has. -/
theorem skipAssigned_added (hx : EndsItem ")" x) (hy : EndsItem ")" y) (ha : Addition p added)
    (h : skipAssigned ")" (item ++ x) = x) : skipAssigned ")" (item ++ (added ++ y)) = y := by
  cases item with
  | nil => exact ha.skipAssigned hy
  | cons t item =>
    simp only [List.cons_append, skipAssigned, skip?] at h ⊢
    by_cases ht : t.text = "="
    · simp only [if_pos ht] at h ⊢
      rw [skipDefault_exchange hx _ h, ha.skipDefault hy]
    · rw [if_neg ht] at h
      have := congrArg List.length h
      simp at this
      omega

/-! ## Parameters -/

theorem Addition.stops (h : Addition p added) (hy : EndsItem ")" y) : Stops (added ++ y) := by
  cases h with
  | nothing =>
    obtain ⟨t, r, rfl, hk, ht⟩ := hy.exists_cons
    refine ⟨t, r, rfl, by simp [hk], ?_⟩
    rcases ht with ht | ht <;> rw [ht] <;> decide
  | @value equals e _ heq _ =>
    have hk : equals.kind = .mark := congrArg Lexeme.kind heq
    have ht : equals.text = "=" := congrArg Lexeme.text heq
    exact ⟨equals, e ++ y, rfl, by simp [hk], by rw [ht]; decide⟩

/-- A parameter without its default value. -/
def typed? (ts : List Token) : Option (Parameter × List Token) :=
  (type? ts).bind fun a => (some (parameterName a.2)).map fun b => (⟨a.1, b.1⟩, b.2)

theorem parameter?_of_typed (h : skip? "..." ts = none) :
    parameter? ts = (typed? ts).map fun a => (a.1, skipAssigned ")" a.2) := by
  simp only [parameter?, typed?, h]
  cases type? ts <;> rfl

end

namespace Blind

variable {x y : List Token}

theorem parameterName (hy : Stops y) :
    Blind x y fun ts => some (Declaration.parameterName ts) := by
  intro ts a r h hx
  obtain ⟨rfl, rfl⟩ := Prod.mk.inj (Option.some.inj h)
  clear h
  refine ⟨hx.trans (suffix_parameterName ts), fun us hus => ?_⟩
  cases hus with
  | here =>
    have hnone : Declaration.freeName? x = none := by
      cases hn : Declaration.freeName? x with
      | none => rfl
      | some a =>
        simp only [hn] at hx
        have := (advances_freeName? hn).2
        have := hx.length_le
        omega
    have hfree : Declaration.freeName? y = none := by
      rw [Declaration.freeName?, hy.name?_none, Option.filter_none]
    simp only [Declaration.parameterName, hnone, hfree]
    exact ⟨y, rfl, .here⟩
  | @cons t ts us hus =>
    simp only [Declaration.parameterName, Declaration.freeName?, Declaration.name?]
    by_cases hn : t.isName = true
    · cases hr : isReserved t.text <;> simp only [hn, if_true, Option.filter_some, hr]
      · exact ⟨us, rfl, hus⟩
      · exact ⟨t :: us, rfl, hus.cons t⟩
    · simp only [if_neg hn, Option.filter_none]
      exact ⟨t :: us, rfl, hus.cons t⟩

theorem typed? (hy : Stops y) : Blind x y typed? := fun ts =>
  (type? hy ts).bind fun type r _ => (parameterName hy r).map fun name => Parameter.mk type name

theorem declarator? (hx : InValue x) (hy : Stops y) (hy' : InValue y) :
    Blind x y declarator? := fun ts =>
  (front? hx hy hy' ts).bind fun front r _ => (type? hy r).bind fun type v _ =>
    (qualifiedName? hy v).map fun name => (front, type, name)

end Blind

section

variable {p : Parameter} {ps : List Parameter} {x y z item added ts us r : List Token} {t : Token}

/-- A parameter is read as it was when a default value is added to it. -/
theorem parameter?_added (h : parameter? (item ++ x) = some (p, x)) (hx : EndsItem ")" x)
    (hy : EndsItem ")" y) (ha : Addition p added) :
    parameter? (item ++ (added ++ y)) = some (p, y) := by
  obtain ⟨t, item, rfl⟩ : ∃ t item', item = t :: item' := by
    cases item with
    | nil => exact absurd (advances_parameter? h).2 (by simp)
    | cons t item => exact ⟨t, item, rfl⟩
  by_cases ht : t.text = "..."
  · have hskip : ∀ v, skip? "..." (t :: v) = some v := fun v => if_pos ht
    simp only [List.cons_append, parameter?, hskip, Option.some.injEq, Prod.mk.injEq] at h ⊢
    obtain ⟨rfl, h⟩ := h
    obtain rfl : item = [] := by simpa using h
    cases ha with
    | nothing => exact ⟨rfl, rfl⟩
    | value hne _ _ => exact absurd rfl hne
  · have hskip : ∀ v, skip? "..." (t :: v) = none := fun v => if_neg ht
    rw [List.cons_append, parameter?_of_typed (hskip _), ← List.cons_append] at h ⊢
    obtain ⟨⟨p', behind⟩, htyped, heq⟩ := Option.map_eq_some_iff.mp h
    obtain ⟨rfl, hassigned⟩ := Prod.mk.inj heq
    simp only at hassigned
    have hsuffix : x <:+ behind := hassigned ▸ suffix_skipAssigned ")" behind
    obtain ⟨-, hblind⟩ := Blind.typed? (ha.stops hy) _ htyped hsuffix
    obtain ⟨v, hv, hexchanged⟩ := hblind (Exchanged.here.append (t :: item))
    obtain ⟨value, rfl, rfl⟩ := hexchanged.exists_append
    rw [hv, Option.map_some, skipAssigned_added hx hy ha hassigned]

theorem commaList_comma {comma : Token} (hc : comma.bare = .mark ",")
    (h : parameter? ts = some (p, comma :: r)) :
    commaList parameter? ")" ts = (commaList parameter? ")" r).map fun z => (p :: z.1, z.2) := by
  have hs : skip? "," (comma :: r) = some r := if_pos (congrArg Lexeme.text hc)
  rw [commaList_eq advances_parameter?, h, Option.bind_some]
  simp only [afterItem, hs]

theorem commaList_close {close : Token} (hc : close.bare = .mark ")")
    (h : parameter? ts = some (p, close :: r)) :
    commaList parameter? ")" ts = some ([p], r) := by
  have ht : close.text = ")" := congrArg Lexeme.text hc
  rw [commaList_eq advances_parameter?, h, Option.bind_some]
  simp [afterItem, skip?, ht]

/-- The parameters are read with the default values and without them. -/
theorem AddsDefaults.commaList (h : AddsDefaults ps ts us) : ∃ r,
    commaList parameter? ")" ts = some (ps, r) ∧ commaList parameter? ")" us = some (ps, r) := by
  induction h with
  | @last p item added rest close close' hp ha hc hc' =>
    have hx := endsItem_of_bare (by decide) hc rest
    have hy := endsItem_of_bare (by decide) hc' rest
    exact ⟨rest, commaList_close hc hp, commaList_close hc' (parameter?_added hp hx hy ha)⟩
  | @more p ps item added ts us comma comma' hp ha hc hc' _ ih =>
    obtain ⟨r, h1, h2⟩ := ih
    have hx := endsItem_of_bare (by decide) hc ts
    have hy := endsItem_of_bare (by decide) hc' us
    refine ⟨r, ?_, ?_⟩
    · rw [commaList_comma hc hp, h1, Option.map_some]
    · rw [commaList_comma hc' (parameter?_added hp hx hy ha), h2, Option.map_some]

/-- The first two tokens behind the parenthesis are those that stood there, or an equals sign is the
second. -/
theorem Addition.starts {c c' : Token} (ha : Addition p added) (hc : c'.text = c.text)
    (hp : parameter? (item ++ c :: x) = some (p, c :: x)) (y : List Token) : ∃ t u v ts us,
      item ++ c :: x = t :: u :: ts ∧ item ++ (added ++ c' :: y) = t :: v :: us ∧
        (v.text = u.text ∨ v.text = "=") := by
  match item with
  | [] => exact absurd (advances_parameter? hp).2 (by simp)
  | t :: u :: item => exact ⟨t, u, u, _, _, rfl, rfl, .inl rfl⟩
  | [t] =>
    cases ha with
    | nothing => exact ⟨t, c, c', x, y, rfl, rfl, .inl hc⟩
    | @value equals e _ heq _ =>
      exact ⟨t, c, equals, x, e ++ c' :: y, rfl, rfl, .inr (congrArg Lexeme.text heq)⟩

theorem AddsDefaults.starts (h : AddsDefaults ps ts us) : ∃ t u v ts' us',
    ts = t :: u :: ts' ∧ us = t :: v :: us' ∧ (v.text = u.text ∨ v.text = "=") := by
  cases h with
  | last hp ha hc hc' => exact ha.starts (congrArg Lexeme.text (hc'.trans hc.symm)) hp _
  | more hp ha hc hc' _ => exact ha.starts (congrArg Lexeme.text (hc'.trans hc.symm)) hp _

theorem AddsDefaults.ne_nil (h : AddsDefaults ps ts us) : ps ≠ [] := by
  cases h <;> exact List.cons_ne_nil _ _

/-- An equals sign behind the first token makes no list empty. -/
theorem emptyList?_none {u v : Token} (hv : v.text = u.text ∨ v.text = "=")
    (h : (skip? ")" (t :: u :: ts)).or ((skip? "void" (t :: u :: ts)).bind (skip? ")")) = none) :
    (skip? ")" (t :: v :: us)).or ((skip? "void" (t :: v :: us)).bind (skip? ")")) = none := by
  rw [Option.or_eq_none_iff, skip?, skip?] at h ⊢
  obtain ⟨hclose, hvoid⟩ := h
  refine ⟨?_, ?_⟩
  · split
    · next ht => rw [if_pos ht] at hclose; cases hclose
    · rfl
  · split
    · next ht =>
      rw [if_pos ht, Option.bind_some, skip?] at hvoid
      rw [Option.bind_some, skip?, if_neg]
      rcases hv with hv | hv
      · rw [hv]
        exact fun hu => by rw [if_pos hu] at hvoid; cases hvoid
      · rw [hv]
        decide
    · rfl

/-- A list with parameters does not begin as an empty one does, nor does it with default values. -/
theorem AddsDefaults.parameters? (h : AddsDefaults ps ts us)
    (hp : parameters? ts = some (ps, r)) : parameters? us = some (ps, r) := by
  obtain ⟨v, h1, h2⟩ := h.commaList
  have hnone : (skip? ")" ts).or ((skip? "void" ts).bind (skip? ")")) = none := by
    cases he : (skip? ")" ts).or ((skip? "void" ts).bind (skip? ")")) with
    | none => rfl
    | some w =>
      simp only [Declaration.parameters?, he, Option.some.injEq, Prod.mk.injEq] at hp
      exact absurd hp.1.symm h.ne_nil
  have hnone' : (skip? ")" us).or ((skip? "void" us).bind (skip? ")")) = none := by
    obtain ⟨t, u, w, ts, us, rfl, rfl, hw⟩ := h.starts
    exact emptyList?_none hw hnone
  simp only [Declaration.parameters?, hnone] at hp
  rw [h1] at hp
  cases hp
  simp only [Declaration.parameters?, hnone', h2]

/-- A list that is read comes apart in this way, so a value may be added behind every parameter of
it. -/
theorem addsDefaults_self (hm : ∀ t ∈ ts, t.text ∈ [",", ")"] → t.kind = .mark)
    (h : commaList parameter? ")" ts = some (ps, r)) : AddsDefaults ps ts ts := by
  induction hn : ts.length using Nat.strongRecOn generalizing ts ps with
  | ind n ih =>
    rw [commaList_eq advances_parameter?] at h
    obtain ⟨⟨p, behind⟩, hp, hafter⟩ := Option.bind_eq_some_iff.mp h
    obtain ⟨⟨item, rfl⟩, -⟩ := advances_parameter? hp
    have hbare : ∀ {mark t v}, behind = t :: v → t.text = mark → mark ∈ [",", ")"] →
        t.bare = .mark mark := by
      rintro mark t v rfl rfl hmark
      rw [Token.bare, hm t (by simp) hmark]
      rfl
    unfold afterItem at hafter
    split at hafter
    · next rest hs =>
      obtain ⟨comma, rfl, hcomma⟩ := skip?_eq_some.mp hs
      obtain ⟨⟨ps', r'⟩, hrest, heq⟩ := Option.map_eq_some_iff.mp hafter
      cases heq
      have hc := hbare rfl hcomma (by decide)
      refine .more hp .nothing hc hc (ih rest.length ?_ (fun t ht => hm t (by simp [ht])) hrest rfl)
      rw [← hn, List.length_append, List.length_cons]
      omega
    · obtain ⟨rest, hclose, heq⟩ := Option.bind_eq_some_iff.mp hafter
      cases heq
      obtain ⟨close, rfl, htext⟩ := skip?_eq_some.mp hclose
      have hc := hbare rfl htext (by decide)
      exact .last hp .nothing hc hc

/-! ## Functions -/

/-- A function is what stands in front of its parameters, these, and the tail. -/
theorem function?_eq (ts : List Token) : function? ts = (declarator? ts).bind fun a =>
    (skip? "(" a.2).bind fun v => (parametersAndTail? v).bind fun b =>
      some (assemble a.1.1 (some a.1.2.1) a.1.2.2 b.1.1 b.1.2, b.2) := by
  simp only [function?, declarator?, Option.bind_eq_bind, Option.bind_assoc, Option.bind_map]
  rfl

theorem suffix_declarator? {a : Front × TypeExpr × String} (h : declarator? ts = some (a, r)) :
    r <:+ ts := by
  unfold declarator? at h
  obtain ⟨⟨front, r1⟩, h1, h⟩ := Option.bind_eq_some_iff.mp h
  obtain ⟨⟨type, r2⟩, h2, h⟩ := Option.bind_eq_some_iff.mp h
  obtain ⟨⟨name, r3⟩, h3, heq⟩ := Option.map_eq_some_iff.mp h
  cases heq
  exact (advances_qualifiedName? h3).1.trans ((advances_type? h2).1.trans (suffix_of_front? h1))

theorem suffix_of_listTokens? {all : List Token} (h : listTokens? all = some ts) : ts <:+ all := by
  obtain ⟨⟨a, behind⟩, hdecl, hskip⟩ := Option.bind_eq_some_iff.mp h
  exact (suffix_of_skip? hskip).1.trans (suffix_declarator? hdecl)

/-- A function is read as it was, whatever else follows its opening parenthesis, when the parameters
and the tail are. -/
theorem function?_exchanged {head : List Token} (hl : Lexical (head ++ ts))
    (hlist : listTokens? (head ++ ts) = some ts)
    (heq : parametersAndTail? us = parametersAndTail? ts) :
    function? (head ++ us) = function? (head ++ ts) := by
  obtain ⟨⟨a, behind⟩, hdecl, hskip⟩ := Option.bind_eq_some_iff.mp hlist
  obtain ⟨paren, rfl, hparen⟩ := skip?_eq_some.mp hskip
  have hopens : ∀ v, InValue (paren :: v) := fun v => ⟨paren, v, rfl, by rw [hparen]; decide⟩
  have hsuffix : paren :: ts <:+ head ++ ts := suffix_declarator? hdecl
  obtain ⟨front, hfront⟩ := hsuffix
  obtain rfl : front ++ [paren] = head :=
    List.append_cancel_right (by rw [List.append_assoc]; exact hfront)
  have hstops : Stops (paren :: us) := by
    refine ⟨paren, us, rfl, fun hk => ?_, by rw [hparen]; decide⟩
    have hname := hl paren (by simp) hk
    rw [hparen] at hname
    exact absurd (hname '(' (by decide)) (by decide)
  obtain ⟨-, hblind⟩ := Blind.declarator? (hopens ts) hstops (hopens us) _ hdecl
    (List.suffix_refl _)
  have hexchanged : Exchanged (paren :: ts) (paren :: us) (front ++ [paren] ++ ts)
      (front ++ [paren] ++ us) := by
    simpa using Exchanged.here.append front
  obtain ⟨v, hv, hbehind⟩ := hblind hexchanged
  obtain ⟨as, has, rfl⟩ := hbehind.exists_append
  obtain rfl : as = [] := by simpa using has
  rw [function?_eq, function?_eq, hdecl, hv]
  simp [skip?, hparen, heq]

theorem exists_parameters {all : List Token} {d : Declared Signature}
    (hlist : listTokens? all = some ts) (h : function? all = some (d, r)) :
    ∃ v, parameters? ts = some (d.item.params, v) := by
  obtain ⟨a, hdecl, hskip⟩ := Option.bind_eq_some_iff.mp hlist
  rw [function?_eq, hdecl, Option.bind_some, hskip, Option.bind_some] at h
  obtain ⟨⟨⟨params, tail⟩, w⟩, hboth, heq⟩ := Option.bind_eq_some_iff.mp h
  cases heq
  simp only [parametersAndTail?, Option.bind_eq_bind, Option.bind_eq_some_iff, Option.some.injEq,
    Prod.mk.injEq] at hboth
  obtain ⟨⟨params', v⟩, hparams, -, -, ⟨rfl, -⟩, -⟩ := hboth
  exact ⟨v, hparams⟩

end

/-- A function is recognized as it was when default values are added to its parameters: with the
same signature, the same end, and the same text behind it. -/
theorem function_defaults_added {className : Option String} {cs ds rest : List Char} {s : Signature}
    {terminated : Bool}
    (h : Rule.recognize? className cs .function = some (.function s terminated, rest))
    (ha : DefaultsAdded s.params cs ds) :
    ∃ rest', Rule.recognize? className ds .function = some (.function s terminated, rest') ∧
      tokens rest' = tokens rest := by
  obtain ⟨head, ts, us, hcs, hds, hlist, hadds⟩ := ha
  obtain ⟨⟨d, r⟩, hf, heq⟩ := Option.map_eq_some_iff.mp h
  cases heq
  obtain ⟨v, hparams⟩ := exists_parameters hlist hf
  have hboth : parametersAndTail? us = parametersAndTail? ts := by
    simp only [parametersAndTail?, hparams, hadds.parameters? hparams]
  have hsame : function? (tokens ds) = function? (tokens cs) := by
    have hl := lexical_tokens cs
    rw [hcs] at hlist hl
    rw [hcs, hds, function?_exchanged hl hlist hboth]
  have hf' : function? (tokens ds) = some (d, r) := hsame.trans hf
  refine ⟨textOf r ds, ?_, ?_⟩
  · simp only [Rule.recognize?, Rule.readText, hf', Option.map_some]
  · rw [tokens_textOf (advances_function? hf').1, tokens_textOf (advances_function? hf).1]

/-- Every function with parameters has places for default values: the relation holds of its text and
the text itself, with nothing added. -/
theorem defaultsAdded_self {className : Option String} {cs rest : List Char} {s : Signature}
    {terminated : Bool}
    (h : Rule.recognize? className cs .function = some (.function s terminated, rest))
    (hs : s.params ≠ []) : DefaultsAdded s.params cs cs := by
  obtain ⟨⟨d, r⟩, hf, heq⟩ := Option.map_eq_some_iff.mp h
  cases heq
  obtain ⟨ts, hlist⟩ : ∃ ts, listTokens? (tokens cs) = some ts := by
    rw [function?_eq] at hf
    obtain ⟨a, hdecl, hf⟩ := Option.bind_eq_some_iff.mp hf
    obtain ⟨ts, hskip, -⟩ := Option.bind_eq_some_iff.mp hf
    exact ⟨ts, Option.bind_eq_some_iff.mpr ⟨a, hdecl, hskip⟩⟩
  have hsuffix := suffix_of_listTokens? hlist
  have hm : ∀ t ∈ ts, t.text ∈ [",", ")"] → t.kind = .mark := by
    intro t ht hmark
    simp only [List.mem_cons, List.not_mem_nil, or_false] at hmark
    rcases hmark with hmark | hmark <;>
      exact kind_eq_mark (hsuffix.subset ht) (by rw [hmark]; rfl) (by decide) (by decide)
  obtain ⟨v, hparams⟩ := exists_parameters hlist hf
  have hcomma : commaList parameter? ")" ts = some (d.item.params, v) := by
    unfold parameters? at hparams
    split at hparams
    · exact absurd (Prod.mk.inj (Option.some.inj hparams)).1.symm hs
    · exact hparams
  obtain ⟨head, hhead⟩ := hsuffix
  exact ⟨head, ts, ts, hhead.symm, hhead.symm, hlist, addsDefaults_self hm hcomma⟩

def resizeSignature : Signature where
  template := none
  returnType := some (.ofTokens ["void"])
  name := "resize"
  params := [⟨.ofTokens ["const", "T", "&"], none⟩, ⟨.ofTokens ["int"], some "n"⟩]
  isConst := true
  isStatic := false
  isVirtual := false
  specifier := none

theorem function_defaults_added_resize : ∃ rest',
    Rule.recognize? none "void resize(const T&, int n = sum(1, 2)) const;".toList .function =
      some (.function resizeSignature true, rest') ∧ tokens rest' = [] := by
  have h : Rule.recognize? none "void resize(const T&, int n) const;".toList .function =
      some (.function resizeSignature true, []) := by decide +kernel
  -- The tokens behind the comma, the value, and what follows the list.
  let item : List Token := [⟨.word, "int", true⟩, ⟨.word, "n", true⟩]
  let value : List Token := [⟨.word, "sum", true⟩, ⟨.mark, "(", false⟩, ⟨.word, "1", false⟩,
    ⟨.mark, ",", false⟩, ⟨.word, "2", true⟩, ⟨.mark, ")", false⟩]
  let rest : List Token := [⟨.word, "const", true⟩, ⟨.mark, ";", false⟩]
  let close : Token := ⟨.mark, ")", false⟩
  have hlast : AddsDefaults [⟨.ofTokens ["int"], some "n"⟩] (item ++ close :: rest)
      (item ++ (⟨.mark, "=", true⟩ :: value ++ close :: rest)) :=
    .last (by decide +kernel) (.value (by decide) rfl ⟨by decide, by decide⟩) rfl rfl
  let first : List Token := [⟨.word, "const", false⟩, ⟨.word, "T", true⟩, ⟨.mark, "&", false⟩]
  have hlist := @AddsDefaults.more ⟨.ofTokens ["const", "T", "&"], none⟩ _ first [] _ _
    ⟨.mark, ",", false⟩ ⟨.mark, ",", false⟩ (by decide +kernel) .nothing rfl rfl hlast
  obtain ⟨rest', hrest, htokens⟩ := @function_defaults_added none _
    "void resize(const T&, int n = sum(1, 2)) const;".toList _ _ _ h
    ⟨[⟨.word, "void", false⟩, ⟨.word, "resize", true⟩, ⟨.mark, "(", false⟩], _, _,
      by decide +kernel, by decide +kernel, by decide +kernel, hlist⟩
  exact ⟨rest', hrest, htokens.trans (by decide +kernel)⟩

theorem function_refused_comma :
    (Rule.recognize? none "void f(M m);".toList .function).isSome ∧
      tokens "void f(M m = std::map<int, int>());".toList =
        tokens "void f(M m".toList ++ (tokens " = std::map<int, int>()".toList ++
          tokens ");".toList) ∧
      Rule.recognize? none "void f(M m = std::map<int, int>());".toList .function = none ∧
      (Rule.recognize? none "void f(...);".toList .function).isSome ∧
      Rule.recognize? none "void f(... = 1);".toList .function = none := by
  decide +kernel

end HeaderOutline
