import HeaderOutline.Declaration.Type
import HeaderOutline.Proofs.Spelling
/-!
# Types are read back

The lexemes of a type are read as that type, whatever stands behind them, as long as it does not go
on with the type. The proof follows the grammar: qualified names, the front of a type, its marks,
and then types and their arguments by mutual induction.

Results: `type?_spells`.
-/
namespace HeaderOutline
open Text Declaration

/-- The tokens cannot go on with a type. -/
def EndsType (ts : List Token) : Prop :=
  ∀ t ∈ ts.head?, t.text ∉ ["::", "<", "*", "&"] ∧ isNative t.text = false

theorem EndsType.noMark {ts : List Token} (h : EndsType ts) :
    ∀ t ∈ ts.head?, t.text ∉ ["<", "*", "&"] :=
  fun t ht hm => (h t ht).1 (List.mem_cons_of_mem _ hm)

/-- What begins with a lexeme that cannot go on with a type. -/
theorem endsType_of_spells {rest ts : List Token} {l : Lexeme} {ls : List Lexeme}
    (h : Spells rest (l :: ls) ts)
    (hl : l.text ∉ ["::", "<", "*", "&"] ∧ isNative l.text = false) : EndsType ts := fun t ht => by
  rw [h.head t ht]
  exact hl

def endMarks : List String :=
  [",", ">", ")", "("]

theorem endsType_of_mark {rest ts : List Token} {mark : String} {ls : List Lexeme}
    (hm : mark ∈ endMarks) (h : Spells rest (.mark mark :: ls) ts) : EndsType ts := by
  have hall : ∀ m ∈ endMarks, m ∉ ["::", "<", "*", "&"] ∧ isNative m = false := by decide
  exact endsType_of_spells h (hall mark hm)

variable {rest ts : List Token}

/-! ## Qualified names -/

theorem laterParts_spells {ns : List FreeName}
    (h : Spells rest (ns.flatMap fun n => [Lexeme.mark "::", n.lexeme]) ts)
    (hr : ∀ t ∈ rest.head?, t.text ≠ "::") :
    laterParts ts = (QualifiedName.laterText ns, rest) := by
  induction ns generalizing ts with
  | nil =>
    rw [h.eq_of_nil]
    unfold laterParts
    split
    · next c n ts => rw [if_neg fun hc => hr c rfl hc.1]; rfl
    · rfl
  | cons n ns ih =>
    obtain ⟨c, us, rfl, -, hc, h⟩ := h.uncons
    obtain ⟨t, us, rfl, hk, ht, h⟩ := h.uncons
    rw [laterParts, if_pos ⟨hc, FreeName.isName hk ht⟩, ih h, ht]
    rfl

theorem qualifiedName?_spells {q : QualifiedName} (h : Spells rest q.lexemes ts)
    (hr : ∀ t ∈ rest.head?, t.text ≠ "::") : qualifiedName? ts = some (q.text, rest) := by
  obtain ⟨rooted, first, later⟩ := q
  have hn : first.text ≠ "::" := first.ne (by decide)
  cases rooted with
  | false =>
    have hs := h.skip?_ne hn
    obtain ⟨us, hu, hf⟩ := freeName?_spells h
    simp only [qualifiedName?, skipOptional, startsWith, hs, Option.getD_none, hf, Option.map_some,
      laterParts_spells hu hr]
    rfl
  | true =>
    obtain ⟨vs, hv, hs⟩ := h.skip?_self
    have hs : skip? "::" ts = some vs := hs
    obtain ⟨us, hu, hf⟩ := freeName?_spells hv
    simp only [qualifiedName?, skipOptional, startsWith, hs, Option.getD_some, hf, Option.map_some,
      laterParts_spells hu hr]
    rfl

theorem qualifiedName?_name {n : FreeName} {l : Lexeme} {ls : List Lexeme}
    (h : Spells rest (n.lexeme :: l :: ls) ts) (hl : l.text ≠ "::") :
    ∃ us, Spells rest (l :: ls) us ∧ qualifiedName? ts = some (n.text, us) := by
  have h' : Spells rest (QualifiedName.lexemes ⟨false, n, []⟩ ++ l :: ls) ts := h
  obtain ⟨us, h1, h2⟩ := h'.split
  refine ⟨us, h2, ?_⟩
  rw [qualifiedName?_spells h1 fun t ht => by rw [h2.head t ht]; exact hl]
  simp [QualifiedName.text, QualifiedName.laterText]

/-! ## The front of a type -/

theorem takeWhile_native {ws : List NativeWord} (h : Spells rest (ws.map (·.lexeme)) ts)
    (hr : ∀ t ∈ rest.head?, isNative t.text = false) :
    (ts.takeWhile (isNative ·.text)).map (·.text) = ws.map (·.text) ∧
      ts.dropWhile (isNative ·.text) = rest := by
  induction ws generalizing ts with
  | nil =>
    rw [h.eq_of_nil]
    cases rest with
    | nil => exact ⟨rfl, rfl⟩
    | cons t rest => simp [hr t rfl]
  | cons w ws ih =>
    obtain ⟨t, us, rfl, -, ht, h⟩ := h.uncons
    have hw : isNative t.text = true := by rw [ht]; exact w.holds
    obtain ⟨h1, h2⟩ := ih h
    rw [List.takeWhile_cons, List.dropWhile_cons, hw, if_pos rfl, if_pos rfl, List.map_cons, h1, ht]
    exact ⟨rfl, h2⟩

theorem bareType?_native {w : NativeWord} {ws : List NativeWord}
    (h : Spells rest (BareType.native w ws).lexemes ts)
    (hr : ∀ t ∈ rest.head?, isNative t.text = false) :
    bareType? ts = some (((BareType.native w ws).texts, true), rest) := by
  obtain ⟨h1, h2⟩ := @takeWhile_native _ _ (w :: ws) h hr
  unfold bareType?
  split
  · next he => rw [he] at h1; cases h1
  · next t natives he => rw [← he, h1, h2]; rfl

theorem bareType?_named {q : QualifiedName} (h : Spells rest q.lexemes ts)
    (hr : ∀ t ∈ rest.head?, t.text ≠ "::") : bareType? ts = some (([q.text], false), rest) := by
  have hhead : ∃ l ls, q.lexemes = l :: ls ∧ isNative l.text = false := by
    obtain ⟨rooted, first, later⟩ := q
    cases rooted with
    | false => exact ⟨first.lexeme, _, rfl, first.spec.2.2.2⟩
    | true => exact ⟨.mark "::", _, rfl, by decide⟩
  obtain ⟨l, ls, hl, hn⟩ := hhead
  have hq := qualifiedName?_spells h hr
  obtain ⟨t, us, rfl, -, ht, -⟩ := (hl ▸ h).uncons
  rw [bareType?, List.takeWhile_cons, ht, hn]
  simp only [Bool.false_eq_true, if_false]
  rw [hq]
  rfl

theorem typeFront?_of_bareType? {c : Bool} {us : List Token} {texts : List String} {native : Bool}
    (h : Spells us ((constTexts c).map .word) ts)
    (hb : bareType? us = some ((texts, native), rest)) (hc : ∀ t ∈ us.head?, t.text ≠ "const") :
    typeFront? ts = some ((constTexts c ++ texts, native), rest) := by
  cases c with
  | false =>
    have hs : skip? "const" ts = none := by
      rw [h.eq_of_nil]
      cases us with
      | nil => rfl
      | cons t us => exact if_neg (hc t rfl)
    rw [← h.eq_of_nil] at hb
    simp only [typeFront?, skipOptional, startsWith, hs, Option.getD_none, hb, Option.map_some]
    rfl
  | true =>
    obtain ⟨vs, hv, hs⟩ := h.skip?_self
    have hs : skip? "const" ts = some us := by rw [← hv.eq_of_nil]; exact hs
    simp only [typeFront?, skipOptional, startsWith, hs, Option.getD_some, hb, Option.map_some]
    rfl

/-! ## The back of a type -/

theorem stars_spells {n : Nat} (h : Spells rest ((List.replicate n "*").map .mark) ts)
    (hr : ∀ t ∈ rest.head?, t.text ≠ "*") : stars ts = (List.replicate n "*", rest) := by
  induction n generalizing ts with
  | zero =>
    rw [h.eq_of_nil]
    cases rest with
    | nil => rfl
    | cons t rest => rw [stars, if_neg (hr t rfl)]; rfl
  | succ n ih =>
    obtain ⟨t, us, rfl, -, ht, h⟩ := h.uncons
    have ht : t.text = "*" := ht
    rw [stars, if_pos ht, ih h]
    rfl

theorem ampersands_spells {n m : Nat} (hn : n ≤ m)
    (h : Spells rest ((List.replicate n "&").map .mark) ts) (hr : ∀ t ∈ rest.head?, t.text ≠ "&") :
    ampersands m ts = (List.replicate n "&", rest) := by
  induction n generalizing ts m with
  | zero =>
    rw [h.eq_of_nil]
    cases rest with
    | nil => cases m <;> rfl
    | cons t rest =>
      cases m with
      | zero => rfl
      | succ m => rw [ampersands, if_neg (hr t rfl)]; rfl
  | succ n ih =>
    obtain ⟨m, rfl⟩ : ∃ k, m = k + 1 := ⟨m - 1, by omega⟩
    obtain ⟨t, us, rfl, -, ht, h⟩ := h.uncons
    have ht : t.text = "&" := ht
    rw [ampersands, if_pos ht, ih (by omega) h]
    rfl

theorem typeMarks_spells {m : TypeMarks} (h : Spells rest m.lexemes ts)
    (hr : ∀ t ∈ rest.head?, t.text ∉ ["<", "*", "&"]) : typeMarks ts = (m.texts, rest) := by
  rw [TypeMarks.lexemes, TypeMarks.texts, List.map_append] at h
  obtain ⟨mid, h1, h2⟩ := h.split
  have hend : ∀ t ∈ rest.head?, t.text ≠ "&" ∧ t.text ≠ "*" := fun t ht => by
    have := hr t ht
    simp only [List.mem_cons, not_or] at this
    exact ⟨this.2.2.1, this.2.1⟩
  have hmid : ∀ t ∈ mid.head?, t.text ≠ "*" := fun t ht => by
    cases hn : (m.references : Nat) with
    | zero =>
      rw [hn] at h2
      rw [h2.eq_of_nil] at ht
      exact (hend t ht).2
    | succ n =>
      rw [hn] at h2
      rw [h2.head t ht]
      decide
  have h3 := ampersands_spells (m := 2) (by omega) h2 fun t ht => (hend t ht).1
  simp only [typeMarks, stars_spells h1 hmid, h3]
  rfl

/-- Marks, or what ends a type, cannot go on with a name. -/
theorem head_of_typeMarks {m : TypeMarks} (h : Spells rest m.lexemes ts) (hr : EndsType rest) :
    ∀ t ∈ ts.head?, t.text ∉ ["::", "<"] ∧ isNative t.text = false := fun t ht => by
  rw [TypeMarks.lexemes] at h
  cases hm : m.texts with
  | nil =>
    rw [hm] at h
    rw [h.eq_of_nil] at ht
    obtain ⟨h1, h2⟩ := hr t ht
    simp only [List.mem_cons, List.not_mem_nil, or_false, not_or] at h1 ⊢
    exact ⟨⟨h1.1, h1.2.1⟩, h2⟩
  | cons x xs =>
    have hx : x ∈ m.texts := by rw [hm]; exact List.mem_cons_self
    rw [hm] at h
    have htx : t.text = x := h.head t ht
    rw [htx]
    simp only [TypeMarks.texts, List.mem_append, List.mem_replicate] at hx
    rcases hx with ⟨-, rfl⟩ | ⟨-, rfl⟩
    · decide
    · decide

/-! ## What types begin with -/

/-- The lexemes that types begin with. -/
inductive BeginsType : Lexeme → Prop
  | root : BeginsType (.mark "::")
  | const : BeginsType (.word "const")
  | native (w : NativeWord) : BeginsType w.lexeme
  | name (n : FreeName) : BeginsType n.lexeme

theorem BeginsType.ne {l : Lexeme} (h : BeginsType l) {text : String}
    (ht : text ≠ "::" ∧ text ≠ "const" ∧ isNative text = false ∧ isFreeName text = false) :
    l.text ≠ text := by
  cases h with
  | root => exact ht.1.symm
  | const => exact ht.2.1.symm
  | native w => exact w.ne ht.2.2.1
  | name n => exact n.ne ht.2.2.2

theorem BeginsType.eq_word {l : Lexeme} (h : BeginsType l) {text : String} (ht : text ≠ "::")
    (hl : l.text = text) : l = .word text := by
  cases h with
  | root => exact absurd hl.symm ht
  | const => exact congrArg Lexeme.word hl
  | native w => exact congrArg Lexeme.word hl
  | name n => exact congrArg Lexeme.word hl

theorem BeginsType.isNumber {l : Lexeme} (h : BeginsType l) {t : Token} (ht : t.text = l.text) :
    t.isNumber = false := by
  have hd : t.startsWithDigit = false := by
    cases h with
    | root => rw [Token.startsWithDigit, ht]; decide
    | const => rw [Token.startsWithDigit, ht]; decide
    | native w =>
      rw [Token.startsWithDigit, ht]
      exact Bool.eq_false_iff.mpr (nativeWord_spec w).2
    | name n => exact FreeName.startsWithDigit ht
  rw [Token.isNumber, hd, Bool.and_false]

theorem QualifiedName.head (q : QualifiedName) : ∃ l ls, q.lexemes = l :: ls ∧ BeginsType l ∧
    l.text ≠ "const" := by
  obtain ⟨rooted, first, later⟩ := q
  cases rooted with
  | false => exact ⟨first.lexeme, _, rfl, .name first, first.ne (by decide)⟩
  | true => exact ⟨.mark "::", _, rfl, .root, by decide⟩

theorem BareType.head (b : BareType) : ∃ l ls, b.lexemes = l :: ls ∧ BeginsType l ∧
    l.text ≠ "const" := by
  cases b with
  | native w ws => exact ⟨w.lexeme, _, rfl, .native w, w.ne (by decide)⟩
  | named q => exact q.head

theorem TypeSyntax.head (t : TypeSyntax) : ∃ l ls, t.lexemes = l :: ls ∧ BeginsType l := by
  have hconst : ∀ (c : Bool) {ls : List Lexeme}, (∃ l ls', ls = l :: ls' ∧ BeginsType l ∧
      l.text ≠ "const") → ∀ ms, ∃ l ls', (constTexts c).map .word ++ (ls ++ ms) = l :: ls' ∧
      BeginsType l := by
    rintro c _ ⟨l, ls', rfl, hl, -⟩ ms
    cases c with
    | false => exact ⟨l, _, rfl, hl⟩
    | true => exact ⟨.word "const", _, rfl, .const⟩
  cases t with
  | plain c b m => exact hconst c b.head _
  | applied c q args m => exact hconst c q.head _

/-! ## Types -/

theorem argumentList?_eq (ts : List Token) : argumentList? ts = commaList argument? ">" ts := by
  induction hn : ts.length using Nat.strongRecOn generalizing ts with
  | ind n ih =>
    rw [argumentList?, commaList]
    cases argument? ts with
    | none => rfl
    | some found =>
      obtain ⟨a, behind⟩ := found
      simp only
      cases skip? "," behind with
      | none => rfl
      | some rest =>
        simp only
        split
        · next hlt => rw [ih rest.length (hn ▸ hlt) rest rfl]
        · rfl

theorem arguments?_spells {items : List (List Lexeme)} {exprs : List TypeExpr} {ls : List Lexeme}
    (h : Spells rest (commas items ++ .mark ">" :: ls) ts) (he : items = [] → exprs = [])
    (hhead : ∀ i ∈ items.head?, ∃ l ms, i = l :: ms ∧ l.text ≠ ">")
    (hlist : items ≠ [] → ∃ r, Spells rest ls r ∧ commaList argument? ">" ts = some (exprs, r)) :
    ∃ r, Spells rest ls r ∧ arguments? ts = some (exprs, r) := by
  cases items with
  | nil =>
    obtain ⟨r, hr, hs⟩ := h.skip?_self
    have hs : skip? ">" ts = some r := hs
    exact ⟨r, hr, by simp only [arguments?, hs, he rfl]⟩
  | cons i is =>
    obtain ⟨l, ms, rfl, hl⟩ := hhead i rfl
    rw [commas_cons] at h
    obtain ⟨r, hr, hc⟩ := hlist (by simp)
    exact ⟨r, hr, by simp only [arguments?, h.skip?_ne hl, argumentList?_eq, hc]⟩

theorem type?_plain {c : Bool} {b : BareType} {m : TypeMarks}
    (h : Spells rest (TypeSyntax.plain c b m).lexemes ts) (hr : EndsType rest) :
    type? ts = some ((TypeSyntax.plain c b m).expr, rest) := by
  rw [TypeSyntax.lexemes] at h
  obtain ⟨us, h1, h⟩ := h.split
  obtain ⟨vs, h2, h3⟩ := h.split
  have hv := head_of_typeMarks h3 hr
  have hmarks := typeMarks_spells h3 hr.noMark
  obtain ⟨l, ls, hl, -, hne⟩ := b.head
  have hu : ∀ t ∈ us.head?, t.text ≠ "const" := fun t ht => by
    rw [hl] at h2
    rw [h2.head t ht]
    exact hne
  obtain ⟨native, hb, hn⟩ : ∃ native, bareType? us = some ((b.texts, native), vs) ∧
      argumentsOf? native vs = none := by
    cases b with
    | native w ws => exact ⟨true, bareType?_native h2 fun t ht => (hv t ht).2, rfl⟩
    | named q =>
      have hv : ∀ t ∈ vs.head?, t.text ≠ "::" ∧ t.text ≠ "<" := fun t ht => by
        simpa using (hv t ht).1
      refine ⟨false, bareType?_named h2 fun t ht => (hv t ht).1, ?_⟩
      cases vs with
      | nil => rfl
      | cons t vs => exact if_neg (hv t rfl).2
  rw [type?, typeFront?_of_bareType? h1 hb hu]
  simp only [hn, hmarks]
  rfl

theorem type?_applied {c : Bool} {q : QualifiedName} {args : TypeArguments} {m : TypeMarks}
    (h : Spells rest (TypeSyntax.applied c q args m).lexemes ts) (hr : EndsType rest)
    (hargs : ∀ us ls, Spells rest (commas args.items ++ .mark ">" :: ls) us →
      ∃ r, Spells rest ls r ∧ arguments? us = some (args.exprs, r)) :
    type? ts = some ((TypeSyntax.applied c q args m).expr, rest) := by
  rw [TypeSyntax.lexemes] at h
  obtain ⟨us, h1, h⟩ := h.split
  obtain ⟨vs, h2, h3⟩ := h.split
  obtain ⟨ws, h4, hs⟩ := h3.skip?_self
  have hs : argumentsOf? false vs = some ws := hs
  obtain ⟨xs, h5, ha⟩ := hargs ws _ h4
  obtain ⟨l, ls, hl, -, hne⟩ := q.head
  have hu : ∀ t ∈ us.head?, t.text ≠ "const" := fun t ht => by
    rw [hl] at h2
    rw [h2.head t ht]
    exact hne
  have hb := bareType?_named h2 fun t ht => by rw [h3.head t ht]; decide
  have hfront := typeFront?_of_bareType? h1 hb hu
  have hlt : ws.length < ts.length := by
    have h6 := advances_typeFront? hfront
    have h7 := suffix_of_argumentsOf? hs
    omega
  rw [type?, hfront]
  simp only [hs, if_pos hlt, ha, Option.map_some, typeMarks_spells h5 hr.noMark]
  rfl

theorem TypeArguments.exprs_eq_nil (args : TypeArguments) (h : args.items = []) :
    args.exprs = [] := by
  cases args with
  | nil => rfl
  | number n args => cases h
  | type t args => cases h

/-- No argument begins with the bracket that closes the list. -/
theorem TypeArguments.head (args : TypeArguments) :
    ∀ i ∈ args.items.head?, ∃ l ms, i = l :: ms ∧ l.text ≠ ">" := by
  intro i hi
  cases args with
  | nil => cases hi
  | number n args => cases hi; exact ⟨n.lexeme, [], rfl, n.ne (by decide)⟩
  | type t args =>
    cases hi
    obtain ⟨l, ls, hl, hb⟩ := t.head
    exact ⟨l, ls, hl, hb.ne (by decide)⟩

theorem argument?_number {n : NumberWord} (h : Spells rest [n.lexeme] ts) :
    argument? ts = some (.ofTokens [n.text], rest) := by
  obtain ⟨t, us, rfl, hk, ht, h⟩ := h.uncons
  have ht : t.text = n.text := ht
  have hn : t.isNumber = true := by
    rw [Token.isNumber, hk, Token.startsWithDigit, ht, (numberWord_spec n).1]
    rfl
  rw [argument?, if_pos hn, ht, h.eq_of_nil]

theorem argument?_type {t : TypeSyntax} (h : Spells rest t.lexemes ts) :
    argument? ts = type? ts := by
  obtain ⟨l, ls, hl, hb⟩ := t.head
  rw [hl] at h
  obtain ⟨u, us, rfl, -, hu, -⟩ := h.uncons
  rw [argument?, if_neg (by simp [hb.isNumber hu])]

mutual

/-- The lexemes of a type are read as that type. -/
theorem type?_spells {rest ts : List Token} : (t : TypeSyntax) → Spells rest t.lexemes ts →
    EndsType rest → type? ts = some (t.expr, rest)
  | .plain _ _ _, h, hr => type?_plain h hr
  | .applied _ _ args _, h, hr =>
    type?_applied h hr fun _ _ hu =>
      arguments?_spells hu args.exprs_eq_nil args.head fun hne => argumentList_spells args hne hu

theorem argumentList_spells {rest ts : List Token} {ls : List Lexeme} :
    (args : TypeArguments) → args.items ≠ [] →
    Spells rest (commas args.items ++ .mark ">" :: ls) ts →
    ∃ r, Spells rest ls r ∧ commaList argument? ">" ts = some (args.exprs, r)
  | .nil, hne, _ => absurd rfl hne
  | .number _ args, _, h =>
    commaList_cons advances_types.2.2.2 (by decide) args.exprs_eq_nil
      (fun _ _ _ _ _ h1 => argument?_number h1)
      (fun hne _ hu => argumentList_spells args hne hu) h
  | .type t args, _, h =>
    have hends : ∀ m ∈ [",", ">"], m ∈ endMarks := by decide
    commaList_cons advances_types.2.2.2 (by decide) args.exprs_eq_nil
      (fun m hm _ _ h2 h1 =>
        (argument?_type h1).trans (type?_spells t h1 (endsType_of_mark (hends m hm) h2)))
      (fun hne _ hu => argumentList_spells args hne hu) h

end

end HeaderOutline
