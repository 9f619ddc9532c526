import HeaderOutline.Proofs.TypeReading
/-!
# The syntax of types leaves nothing out

Whatever is read as a type is spelled by the syntax of types and is reported as that syntax says,
as long as its tokens are plain and the names in it are free to use. With `type?_spells`, the types
that are read are just those of the syntax.

Results: `exists_typeSyntax`.
-/
namespace HeaderOutline
open Text Declaration

/-- The tokens are plain, and every name behind `::` is free to use. The other names of a type are
free anyhow, or they would not be read as names. -/
structure TypeTokens (ts : List Token) : Prop where
  plain : ∀ t ∈ ts, t.bare.isPlain = true
  free : ∀ c n, [c, n] <:+: ts → c.text = "::" → n.isName = true → isFreeName n.text = true

variable {ts us rest mid : List Token} {ls ms : List Lexeme}

theorem TypeTokens.of_suffix (h : TypeTokens ts) (hs : us <:+ ts) : TypeTokens us where
  plain t ht := h.plain t (hs.subset ht)
  free c n hi := h.free c n (hi.trans hs.isInfix)

namespace Spells

theorem append (h : Spells mid ls ts) (h' : Spells rest ms mid) : Spells rest (ls ++ ms) ts := by
  induction h with
  | nil => exact h'
  | cons t _ ih => exact .cons t ih

theorem of_bare {t : Token} {l : Lexeme} (ht : t.bare = l) (h : Spells rest ls ts) :
    Spells rest (l :: ls) (t :: ts) :=
  ht ▸ .cons t h

end Spells

/-! ## Tokens -/

/-- A plain token with the characters of a word is a word. -/
theorem bare_eq_word {t : Token} (hp : t.bare.isPlain = true)
    (hw : ∀ c ∈ t.text.toList, isNameChar c = true) : t.bare = .word t.text := by
  cases hk : t.kind with
  | word => rw [Token.bare, hk]; rfl
  | literal => rw [Lexeme.isPlain, Token.bare, hk] at hp; cases hp
  | mark =>
    rw [Lexeme.isPlain, Token.bare, hk] at hp
    simp only [Lexeme.chars, Bool.or_eq_true, beq_iff_eq, Bool.and_eq_true] at hp
    rcases hp with (hp | hp) | ⟨hlen, hall⟩
    · exact absurd (hw ':' (by rw [hp]; simp)) (by decide)
    · exact absurd (hw '.' (by rw [hp]; simp)) (by decide)
    · obtain ⟨c, hc⟩ := List.length_eq_one_iff.mp hlen
      have hn := hw c (by rw [hc]; simp)
      rw [hc] at hall
      simp [Lexeme.isMarkChar, hn] at hall

/-- A plain token with another character than those of words is a mark. -/
theorem bare_eq_mark {t : Token} (hp : t.bare.isPlain = true) {mark : String} (ht : t.text = mark)
    (hm : ∃ c ∈ mark.toList, isNameChar c = false) : t.bare = .mark mark := by
  obtain ⟨c, hc, hn⟩ := hm
  cases hk : t.kind with
  | mark => rw [Token.bare, hk, ht]; rfl
  | literal => rw [Lexeme.isPlain, Token.bare, hk] at hp; cases hp
  | word =>
    rw [Lexeme.isPlain, Token.bare, hk] at hp
    simp only [Lexeme.chars, Bool.and_eq_true, List.all_eq_true] at hp
    rw [hp.2 c (by rw [ht]; exact hc)] at hn
    cases hn

theorem spells_of_skip? (hp : ∀ t ∈ ts, t.bare.isPlain = true) {mark : String}
    (hm : ∃ c ∈ mark.toList, isNameChar c = false) (h : skip? mark ts = some rest) :
    Spells rest [.mark mark] ts := by
  obtain ⟨t, rfl, ht⟩ := skip?_eq_some.mp h
  exact .of_bare (bare_eq_mark (hp t List.mem_cons_self) ht hm) .nil

theorem isFreeName_of_isName {t : Token} (hp : t.bare.isPlain = true) (hn : t.isName = true)
    (hr : isReserved t.text = false) (hb : isNative t.text = false) :
    isFreeName t.text = true := by
  simp only [Token.isName, Bool.and_eq_true, beq_iff_eq, Bool.not_eq_true'] at hn
  obtain ⟨hk, hd⟩ := hn
  rw [Lexeme.isPlain, Token.bare, hk] at hp
  simp only [Lexeme.chars, Bool.and_eq_true, Bool.not_eq_true'] at hp
  have hs : t.text.toList.head?.any isNameStart = true := by
    cases hc : t.text.toList with
    | nil => rw [hc] at hp; cases hp.1
    | cons c r =>
      have h1 : isNameChar c = true := List.all_eq_true.mp hp.2 c (by rw [hc]; simp)
      have h2 : Token.isDigit c = false := by rw [Token.startsWithDigit, hc] at hd; exact hd
      simp only [isNameChar, isAsciiAlphanumeric, Bool.or_eq_true, Bool.and_eq_true,
        decide_eq_true_eq, beq_iff_eq] at h1
      simp only [Token.isDigit, Bool.and_eq_false_iff, decide_eq_false_iff_not] at h2
      simp only [List.head?_cons, Option.any_some, isNameStart, Bool.or_eq_true, Bool.and_eq_true,
        decide_eq_true_eq, beq_iff_eq]
      rcases h1 with h1 | rfl
      · omega
      · decide
  simp [isFreeName, hs, hp.2, hr, hb]

theorem freeName?_eq_some {name : String} (h : freeName? ts = some (name, rest)) :
    ∃ t, ts = t :: rest ∧ t.text = name ∧ t.isName = true ∧ isReserved name = false := by
  obtain ⟨hn, hr⟩ := Option.filter_eq_some_iff.mp h
  cases ts with
  | nil => cases hn
  | cons t ts =>
    rw [Declaration.name?] at hn
    split at hn
    · next ht =>
      cases hn
      exact ⟨t, rfl, rfl, ht, by simpa using hr⟩
    · cases hn

/-! ## Names and words -/

theorem exists_laterParts (h : TypeTokens ts) : ∃ ns : List FreeName,
    Spells (laterParts ts).2 (ns.flatMap fun n => [.mark "::", n.lexeme]) ts ∧
      QualifiedName.laterText ns = (laterParts ts).1 := by
  fun_induction laterParts ts with
  | case1 c n ts hcn parts rest heq ih =>
    obtain ⟨ns, hs, ht⟩ := ih (h.of_suffix ((List.suffix_cons n ts).trans (List.suffix_cons c _)))
    rw [heq] at hs ht
    have hfree := h.free c n ⟨[], ts, rfl⟩ hcn.1 hcn.2
    have hc := bare_eq_mark (h.plain c (by simp)) hcn.1 ⟨':', by decide, by decide⟩
    have hn := bare_eq_word (h.plain n (by simp)) (FreeName.spec ⟨n.text, hfree⟩).2.1
    exact ⟨⟨n.text, hfree⟩ :: ns, .of_bare hc (.of_bare hn hs),
      congrArg ("::" ++ n.text ++ ·) ht⟩
  | case2 => exact ⟨[], .nil, rfl⟩
  | case3 => exact ⟨[], .nil, rfl⟩

theorem exists_qualifiedName (h : TypeTokens ts) (hb : ∀ t ∈ ts.head?, isNative t.text = false)
    {name : String} (hq : qualifiedName? ts = some (name, rest)) :
    ∃ q : QualifiedName, Spells rest q.lexemes ts ∧ q.text = name := by
  obtain ⟨⟨first, behind⟩, hf, heq⟩ := Option.map_eq_some_iff.mp hq
  cases heq
  obtain ⟨n, hskip, rfl, hname, hres⟩ := freeName?_eq_some hf
  have hsuf : n :: behind <:+ ts := hskip ▸ suffix_skipOptional "::" ts
  have hplain := h.plain n (hsuf.subset List.mem_cons_self)
  obtain ⟨ns, hs, ht⟩ := exists_laterParts (h.of_suffix ((List.suffix_cons n _).trans hsuf))
  cases hroot : skip? "::" ts with
  | none =>
    rw [skipOptional, hroot, Option.getD_none] at hskip
    subst hskip
    have hfree := isFreeName_of_isName hplain hname hres (hb n rfl)
    have hn := bare_eq_word hplain (FreeName.spec ⟨n.text, hfree⟩).2.1
    refine ⟨⟨false, ⟨n.text, hfree⟩, ns⟩, .of_bare hn hs, ?_⟩
    simp only [startsWith, hroot, ← ht]
    rfl
  | some us =>
    rw [skipOptional, hroot, Option.getD_some] at hskip
    subst hskip
    obtain ⟨c, rfl, hc⟩ := skip?_eq_some.mp hroot
    have hfree := h.free c n ⟨[], behind, rfl⟩ hc hname
    have hn := bare_eq_word hplain (FreeName.spec ⟨n.text, hfree⟩).2.1
    have hc := bare_eq_mark (h.plain c List.mem_cons_self) hc ⟨':', by decide, by decide⟩
    refine ⟨⟨true, ⟨n.text, hfree⟩, ns⟩, .of_bare hc (.of_bare hn hs), ?_⟩
    simp only [startsWith, hroot, ← ht]
    rfl

theorem exists_natives (hp : ∀ t ∈ ts, t.bare.isPlain = true) : ∃ ws : List NativeWord,
    Spells (ts.dropWhile (isNative ·.text)) (ws.map (·.lexeme)) ts ∧
      ws.map (·.text) = (ts.takeWhile (isNative ·.text)).map (·.text) := by
  induction ts with
  | nil => exact ⟨[], .nil, rfl⟩
  | cons t ts ih =>
    cases ht : isNative t.text with
    | false =>
      rw [List.dropWhile_cons, List.takeWhile_cons, ht]
      exact ⟨[], .nil, rfl⟩
    | true =>
      obtain ⟨ws, hs, hw⟩ := ih fun u hu => hp u (List.mem_cons_of_mem t hu)
      have hbare := bare_eq_word (hp t List.mem_cons_self) (nativeWord_spec ⟨t.text, ht⟩).1.2
      rw [List.dropWhile_cons, List.takeWhile_cons, ht, if_pos rfl, if_pos rfl]
      exact ⟨⟨t.text, ht⟩ :: ws, .of_bare hbare hs, congrArg (t.text :: ·) hw⟩

/-- What is read as the bare part of a type is one, and only names may have arguments. -/
theorem exists_bareType (h : TypeTokens ts) {texts : List String} {native : Bool}
    (hb : bareType? ts = some ((texts, native), rest)) :
    ∃ b : BareType, Spells rest b.lexemes ts ∧ b.texts = texts ∧
      (native = false → ∃ q, b = .named q) := by
  unfold bareType? at hb
  split at hb
  · next hnone =>
    obtain ⟨⟨name, behind⟩, hq, heq⟩ := Option.map_eq_some_iff.mp hb
    cases heq
    have hhead : ∀ t ∈ ts.head?, isNative t.text = false := fun t ht => by
      obtain ⟨us, rfl⟩ := List.head?_eq_some_iff.mp ht
      rw [List.takeWhile_cons] at hnone
      split at hnone
      · cases hnone
      · next hn => exact Bool.eq_false_iff.mpr hn
    obtain ⟨q, hs, ht⟩ := exists_qualifiedName h hhead hq
    exact ⟨.named q, hs, congrArg (fun x => [x]) ht, fun _ => ⟨q, rfl⟩⟩
  · next t natives htake =>
    cases hb
    obtain ⟨ws, hs, hw⟩ := exists_natives h.plain
    rw [htake] at hw
    cases ws with
    | nil => cases hw
    | cons w ws => exact ⟨.native w ws, hs, hw, fun hn => by cases hn⟩

theorem exists_typeFront (h : TypeTokens ts) {front : List String} {native : Bool}
    (hf : typeFront? ts = some ((front, native), rest)) :
    ∃ c, ∃ b : BareType, Spells rest ((constTexts c).map .word ++ b.lexemes) ts ∧
      constTexts c ++ b.texts = front ∧ (native = false → ∃ q, b = .named q) := by
  obtain ⟨⟨⟨texts, native'⟩, behind⟩, hb, heq⟩ := Option.map_eq_some_iff.mp hf
  cases heq
  obtain ⟨b, hs, ht, hn⟩ := exists_bareType (h.of_suffix (suffix_skipOptional "const" ts)) hb
  cases hc : skip? "const" ts with
  | none =>
    rw [skipOptional, hc, Option.getD_none] at hs
    refine ⟨false, b, hs, ?_, hn⟩
    simp only [startsWith, hc, ht]
    rfl
  | some us =>
    rw [skipOptional, hc, Option.getD_some] at hs
    obtain ⟨t, rfl, htext⟩ := skip?_eq_some.mp hc
    have hchars : ∀ c ∈ "const".toList, isNameChar c = true := by decide
    have hbare := bare_eq_word (h.plain t List.mem_cons_self) (htext ▸ hchars)
    rw [htext] at hbare
    refine ⟨true, b, .of_bare hbare hs, ?_, hn⟩
    simp only [startsWith, hc, ht]
    rfl

/-! ## Marks -/

theorem exists_stars (hp : ∀ t ∈ ts, t.bare.isPlain = true) : ∃ n,
    Spells (stars ts).2 ((List.replicate n "*").map .mark) ts ∧
      (stars ts).1 = List.replicate n "*" := by
  fun_induction stars ts with
  | case1 t ts ht marks rest heq ih =>
    obtain ⟨n, hs, hn⟩ := ih fun u hu => hp u (List.mem_cons_of_mem t hu)
    rw [heq] at hs hn
    have hbare := bare_eq_mark (hp t List.mem_cons_self) ht ⟨'*', by decide, by decide⟩
    exact ⟨n + 1, .of_bare hbare hs, congrArg ("*" :: ·) hn⟩
  | case2 => exact ⟨0, .nil, rfl⟩
  | case3 => exact ⟨0, .nil, rfl⟩

theorem exists_ampersands (m : Nat) (hp : ∀ t ∈ ts, t.bare.isPlain = true) : ∃ n ≤ m,
    Spells (ampersands m ts).2 ((List.replicate n "&").map .mark) ts ∧
      (ampersands m ts).1 = List.replicate n "&" := by
  fun_induction ampersands m ts with
  | case1 m t ts ht marks rest heq ih =>
    obtain ⟨n, hle, hs, hn⟩ := ih fun u hu => hp u (List.mem_cons_of_mem t hu)
    rw [heq] at hs hn
    have hbare := bare_eq_mark (hp t List.mem_cons_self) ht ⟨'&', by decide, by decide⟩
    exact ⟨n + 1, by omega, .of_bare hbare hs, congrArg ("&" :: ·) hn⟩
  | case2 => exact ⟨0, Nat.zero_le _, .nil, rfl⟩
  | case3 => exact ⟨0, Nat.zero_le _, .nil, rfl⟩

theorem exists_typeMarks (hp : ∀ t ∈ ts, t.bare.isPlain = true) :
    ∃ m : TypeMarks, Spells (typeMarks ts).2 m.lexemes ts ∧ m.texts = (typeMarks ts).1 := by
  obtain ⟨n, hs, hn⟩ := exists_stars hp
  obtain ⟨k, hk, hs', hk'⟩ := exists_ampersands 2 fun t ht => hp t ((suffix_stars ts).subset ht)
  refine ⟨⟨n, ⟨k, by omega⟩⟩, ?_, ?_⟩
  · rw [TypeMarks.lexemes, TypeMarks.texts, List.map_append]
    exact hs.append hs'
  · rw [TypeMarks.texts, ← hn, ← hk']
    rfl

/-! ## Arguments and types -/

/-- What is read as an argument is spelled so, whatever other arguments follow it. -/
def SpellsArgument (ts : List Token) (e : TypeExpr) (rest : List Token) : Prop :=
  ∃ (add : TypeArguments → TypeArguments) (ls : List Lexeme), Spells rest ls ts ∧
    ∀ args, (add args).items = ls :: args.items ∧ (add args).exprs = e :: args.exprs

theorem spellsArgument_type {t : TypeSyntax} (h : Spells rest t.lexemes ts) :
    SpellsArgument ts t.expr rest :=
  ⟨.type t, t.lexemes, h, fun _ => ⟨rfl, rfl⟩⟩

theorem spellsArgument_of_argument? (h : TypeTokens ts) {e : TypeExpr}
    (ha : argument? ts = some (e, rest))
    (ht : ∀ f, type? ts = some (f, rest) →
      ∃ t : TypeSyntax, Spells rest t.lexemes ts ∧ t.expr = f) :
    SpellsArgument ts e rest := by
  cases ts with
  | nil => rw [argument?] at ha; cases ha
  | cons t ts =>
    rw [argument?] at ha
    split at ha
    · next hn =>
      cases ha
      simp only [Token.isNumber, Bool.and_eq_true, beq_iff_eq] at hn
      have hp := h.plain t List.mem_cons_self
      have hbare : t.bare = .word t.text := by rw [Token.bare, hn.1]; rfl
      rw [hbare] at hp
      simp only [Lexeme.isPlain, Lexeme.word, Lexeme.chars, Bool.and_eq_true] at hp
      have hnumber : isNumber t.text = true := by
        rw [isNumber, hp.2, Bool.and_true]
        exact hn.2
      exact ⟨.number ⟨t.text, hnumber⟩, _, .of_bare hbare .nil, fun _ => ⟨rfl, rfl⟩⟩
    · obtain ⟨t', hs, rfl⟩ := ht e ha
      exact spellsArgument_type hs

/-- What is read as a list of arguments is one, when each of its arguments is. -/
theorem exists_argumentList (hp : ∀ t ∈ ts, t.bare.isPlain = true) {es : List TypeExpr}
    (hitem : ∀ us e r, us <:+ ts → argument? us = some (e, r) → SpellsArgument us e r)
    (h : commaList argument? ">" ts = some (es, rest)) :
    ∃ args : TypeArguments, args.items ≠ [] ∧
      Spells rest (commas args.items ++ [.mark ">"]) ts ∧ args.exprs = es := by
  fun_induction commaList argument? ">" ts generalizing es with
  | case1 => cases h
  | case3 => cases h
  | case2 ts e behind harg us hcomma hlt ih =>
    obtain ⟨⟨es', r⟩, h, heq⟩ := Option.map_eq_some_iff.mp h
    cases heq
    have h1 := (advances_types.2.2.2 harg).1
    have h2 := (suffix_of_skip? hcomma).1.trans h1
    obtain ⟨add, ls, hs, hadd⟩ := hitem ts e behind (List.suffix_refl ts) harg
    obtain ⟨args, hne, hs', rfl⟩ := ih (fun t ht => hp t (h2.subset ht))
      (fun vs f r hv => hitem vs f r (hv.trans h2)) h
    have hc := spells_of_skip? (fun t ht => hp t (h1.subset ht)) ⟨',', by decide, by decide⟩ hcomma
    refine ⟨add args, by rw [(hadd args).1]; simp, ?_, (hadd args).2⟩
    rw [(hadd args).1, commas_cons, List.isEmpty_eq_false_iff.mpr hne, List.append_assoc]
    exact hs.append (hc.append hs')
  | case4 ts e behind harg hcomma =>
    obtain ⟨r, hclose, heq⟩ := Option.map_eq_some_iff.mp h
    cases heq
    have h1 := (advances_types.2.2.2 harg).1
    obtain ⟨add, ls, hs, hadd⟩ := hitem ts e behind (List.suffix_refl ts) harg
    have hc := spells_of_skip? (fun t ht => hp t (h1.subset ht)) ⟨'>', by decide, by decide⟩ hclose
    obtain ⟨hi, he⟩ := hadd .nil
    refine ⟨add .nil, by rw [hi]; simp, ?_, he⟩
    rw [hi, commas_cons]
    simpa [TypeArguments.items] using hs.append hc

theorem exists_arguments (hp : ∀ t ∈ ts, t.bare.isPlain = true) {es : List TypeExpr}
    (hitem : ∀ us e r, us <:+ ts → argument? us = some (e, r) → SpellsArgument us e r)
    (h : arguments? ts = some (es, rest)) : ∃ args : TypeArguments,
      Spells rest (commas args.items ++ [.mark ">"]) ts ∧ args.exprs = es := by
  rw [arguments?] at h
  split at h
  · next hs =>
    cases h
    exact ⟨.nil, spells_of_skip? hp ⟨'>', by decide, by decide⟩ hs, rfl⟩
  · rw [argumentList?_eq] at h
    obtain ⟨args, -, hs, he⟩ := exists_argumentList hp hitem h
    exact ⟨args, hs, he⟩

/-- Whatever is read as a type is spelled by the syntax of types, and that syntax is reported as
what was read. -/
theorem exists_typeSyntax {e : TypeExpr} (h : TypeTokens ts) (ht : type? ts = some (e, rest)) :
    ∃ t : TypeSyntax, Spells rest t.lexemes ts ∧ t.expr = e := by
  induction hn : ts.length using Nat.strongRecOn generalizing ts e rest with
  | ind n ih =>
    cases hf : typeFront? ts with
    | none => rw [type?, hf] at ht; cases ht
    | some found =>
      obtain ⟨⟨front, native⟩, behind⟩ := found
      have hadv := advances_typeFront? hf
      have hbehind := h.of_suffix hadv.1
      obtain ⟨c, b, hs, rfl, hb⟩ := exists_typeFront h hf
      cases ha : argumentsOf? native behind with
      | none =>
        rw [type?, hf] at ht
        simp only [ha] at ht
        cases ht
        obtain ⟨m, hs', hm⟩ := exists_typeMarks hbehind.plain
        refine ⟨.plain c b m, ?_, ?_⟩
        · rw [TypeSyntax.lexemes, ← List.append_assoc]
          exact hs.append hs'
        · rw [TypeSyntax.expr, hm]
      | some inner =>
        have hinner := suffix_of_argumentsOf? ha
        cases native with
        | true => cases ha
        | false =>
          have hlt : inner.length < ts.length := by omega
          rw [type?, hf] at ht
          simp only [ha, if_pos hlt] at ht
          obtain ⟨⟨es, closed⟩, hargs, heq⟩ := Option.map_eq_some_iff.mp ht
          cases heq
          obtain ⟨q, rfl⟩ := hb rfl
          have hin := h.of_suffix (hinner.1.trans hadv.1)
          -- Every argument lies behind the opening bracket, so its tokens are fewer.
          obtain ⟨args, hs', rfl⟩ := exists_arguments hin.plain (fun us f r hu harg =>
            have husuf := hin.of_suffix hu
            spellsArgument_of_argument? husuf harg fun f' hf' =>
              ih us.length (by have := hu.length_le; omega) husuf hf' rfl) hargs
          have hclosed := hin.of_suffix (advances_types.2.1 hargs).1
          obtain ⟨m, hs2, hm⟩ := exists_typeMarks hclosed.plain
          have hopen := spells_of_skip? hbehind.plain ⟨'<', by decide, by decide⟩ ha
          refine ⟨.applied c q args m, ?_, ?_⟩
          · have hall := hs.append (hopen.append (hs'.append hs2))
            simpa [TypeSyntax.lexemes, BareType.lexemes] using hall
          · rw [TypeSyntax.expr, hm]
            rfl

end HeaderOutline
