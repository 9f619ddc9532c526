import HeaderOutline.Proofs.EnumGathering
import HeaderOutline.Proofs.SpreadText
import HeaderOutline.Proofs.SqueezedText
/-!
# Enums with values

The members of an enum may have values. The body of an enum is found by the next brace behind the
opening one, and its items by commas, whatever these belong to. So neither may stand in a value, be
it in brackets or in a literal, and the underlying type may be made of words and colons only. An
enum with such values and such a type is plain (`FullEnum.Plain`).

Results:
* `FullEnum.memberNames?_spread`: the members of a body without commas in its values.
* `FullEnum.enumDecl?_of_plain`: a plain enum is read, whatever follows it.
-/
namespace HeaderOutline
open Text Declaration

/-! ## The syntax of enums -/

def isIdentifier (text : String) : Bool :=
  text.toList.head?.any isNameStart && text.toList.all isNameChar

/-- An ASCII identifier that is no key of a scoped enum. -/
def isEnumName (text : String) : Bool :=
  isIdentifier text && text != "class" && text != "struct"

def NoDelimiter (ls : List Lexeme) : Prop :=
  ∀ l ∈ ls, l.text ∉ ["\x7b", "\x7d", ";"]

instance (ls : List Lexeme) : Decidable (NoDelimiter ls) :=
  inferInstanceAs (Decidable (∀ l ∈ ls, _))

/-- Behind `depth` open round brackets, the lexemes close these and all that they open, and commas
stand in brackets only. -/
def enclosed (depth : Nat) : List Lexeme → Bool
  | [] => depth == 0
  | l :: ls =>
    if l.text = "(" then enclosed (depth + 1) ls
    else if l.text = ")" then decide (0 < depth) && enclosed (depth - 1) ls
    else (l.text != "," || decide (0 < depth)) && enclosed depth ls

structure EnumValue where
  lexemes : List Lexeme
  ne_nil : lexemes ≠ []
  noDelimiter : NoDelimiter lexemes
  enclosed : enclosed 0 lexemes = true

structure Enumerator where
  name : WordOf isIdentifier
  value : Option EnumValue

namespace Enumerator

def valueLexemes (m : Enumerator) : List Lexeme :=
  m.value.toList.flatMap (·.lexemes)

def lexemes (m : Enumerator) : List Lexeme :=
  m.name.lexeme :: m.value.toList.flatMap fun v => .mark "=" :: v.lexemes

end Enumerator

structure UnderlyingType where
  lexemes : List Lexeme
  ne_nil : lexemes ≠ []
  noDelimiter : NoDelimiter lexemes
  noLiteral : ∀ l ∈ lexemes, l.kind ≠ .literal

/-- An enum with all that it may have: a key, a name, an underlying type, members with values, and a
comma behind the last one. -/
structure FullEnum where
  key : Option ClassKey
  name : Option (WordOf isEnumName)
  type : Option UnderlyingType
  items : List Enumerator
  trailing : Bool

namespace FullEnum

def typeLexemes (e : FullEnum) : List Lexeme :=
  e.type.toList.flatMap fun t => .mark ":" :: t.lexemes

def itemLexemes (items : List Enumerator) (trailing : Bool) : List Lexeme :=
  commas (items.map (·.lexemes)) ++ if trailing && !items.isEmpty then [.mark ","] else []

def bodyLexemes (e : FullEnum) : List Lexeme :=
  .mark "\x7b" :: (itemLexemes e.items e.trailing ++ [.mark "\x7d", .mark ";"])

def headLexemes (e : FullEnum) : List Lexeme :=
  .word "enum" :: (e.key.toList.map (.word ·.keyword) ++
    (e.name.toList.map (·.lexeme) ++ e.typeLexemes))

def lexemes (e : FullEnum) : List Lexeme :=
  e.headLexemes ++ e.bodyLexemes

def value (e : FullEnum) : EnumDecl :=
  ⟨e.name.map (·.text), e.items.map (·.name.text)⟩

/-- No comma and no brace stands in a value, and the type is made of words and colons. -/
structure Plain (e : FullEnum) : Prop where
  type : ∀ t ∈ e.type, ∀ l ∈ t.lexemes, ∀ c ∈ l.chars, isTypeChar c = true
  values : ∀ m ∈ e.items, ∀ l ∈ m.valueLexemes, ∀ c ∈ l.chars, c ∉ [',', '\x7b', '\x7d']

end FullEnum

/-! ## Identifiers -/

theorem identifier_spec {text : String} (h : isIdentifier text = true) :
    text.toList.head?.any isNameStart = true ∧ ∀ c ∈ text.toList, isNameChar c = true := by
  simpa only [isIdentifier, Bool.and_eq_true, List.all_eq_true] using h

theorem identifier_of_isEnumName {text : String} (h : isEnumName text = true) :
    isIdentifier text = true ∧ text ≠ "class" ∧ text ≠ "struct" := by
  simpa only [isEnumName, Bool.and_eq_true, bne_iff_ne, and_assoc] using h

/-! ## Spread lexemes in front of a text -/

/-- The lexemes begin with one that no word goes on with: a word, which would need a space in front
of it, or a mark that is no word character. -/
def EndsWord (ls : List Lexeme) : Prop :=
  ∃ l ms, ls = l :: ms ∧ (l.kind = .word ∨ ∃ c, l.chars = [c] ∧ isWordChar c = false)

theorem endsWord_word (w : String) (ls : List Lexeme) : EndsWord (.word w :: ls) :=
  ⟨_, _, rfl, .inl rfl⟩

namespace Spread

variable {l : Lexeme} {ls : List Lexeme} {cs : List Char}

/-- The first lexeme stands at the front when the blanks are gone. -/
theorem front (h : Spread (l :: ls) cs) (hl : l.chars.head?.any (!isBlank ·) = true) :
    ∃ ds, (∀ rest, trimStart (cs ++ rest) = l.chars ++ (ds ++ rest)) ∧
      (l.kind = .word → ∀ c ∈ ds.head?, isNameChar c = false) ∧ Spread ls ds := by
  obtain ⟨sp, ds, rfl, hsp, -, hstop, h⟩ := h.uncons
  refine ⟨ds, fun rest => ?_, hstop, h⟩
  obtain ⟨c, hc, hb⟩ := (Option.any_eq_true _ _).mp hl
  obtain ⟨r, hr⟩ := List.head?_eq_some_iff.mp hc
  rw [List.append_assoc, trimStart_blanks fun c hc => isBlank_of_isSpace (hsp c hc), hr,
    List.cons_append, List.cons_append, trimStart_cons (by simpa using hb), List.append_assoc,
    List.cons_append]

/-- Where a word has ended, the lexemes do not go on with it. -/
theorem startsWord (h : Spread ls cs) (hl : EndsWord ls)
    (hstop : ∀ c ∈ cs.head?, isNameChar c = false) (rest : List Char) :
    startsWord (cs ++ rest) = false := by
  obtain ⟨l, ms, rfl, hl⟩ := hl
  obtain ⟨sp, ds, rfl, hsp, hread, -, -⟩ := h.uncons
  cases sp with
  | cons c sp =>
    refine Bool.eq_false_iff.mpr fun hw => ?_
    have hb := isBlank_of_isSpace (hsp c List.mem_cons_self)
    rw [isBlank_of_isWordChar (show isWordChar c = true from hw)] at hb
    cases hb
  | nil =>
    rcases hl with hk | ⟨c, hc, hw⟩
    · rw [Lexeme.IsRead, hk] at hread
      obtain ⟨c, r, hc⟩ := List.exists_cons_of_ne_nil hread.1
      have hname := hread.2 c (by rw [hc]; exact List.mem_cons_self)
      rw [hstop c (by rw [hc]; rfl)] at hname
      cases hname
    · rw [hc]
      exact hw

end Spread

theorem word_front {w : String} (h : isIdentifier w = true) :
    (Lexeme.word w).chars.head?.any (!isBlank ·) = true := by
  obtain ⟨hs, hw⟩ := identifier_spec h
  obtain ⟨c, hc, -⟩ := (Option.any_eq_true _ _).mp hs
  refine (Option.any_eq_true _ _).mpr ⟨c, hc, ?_⟩
  rw [isBlank_of_isNameChar (hw c (List.mem_of_head? hc))]
  rfl

namespace FullEnum

variable {e : FullEnum} {ls : List Lexeme} {cs : List Char}

/-! ## The head -/

theorem typeLexemes_front (h : Spread (e.typeLexemes ++ .mark "\x7b" :: ls) cs)
    (rest : List Char) : ∃ c r, trimStart (cs ++ rest) = c :: r ∧ c ∈ [':', '\x7b'] := by
  rw [typeLexemes] at h
  cases ht : e.type with
  | none =>
    rw [ht] at h
    obtain ⟨ds, hds, -⟩ := Spread.front (l := .mark "\x7b") h rfl
    exact ⟨'\x7b', _, hds rest, by simp⟩
  | some t =>
    rw [ht] at h
    obtain ⟨ds, hds, -⟩ := Spread.front (l := .mark ":") h rfl
    exact ⟨':', _, hds rest, by simp⟩

theorem endsWord_type (e : FullEnum) (ls : List Lexeme) :
    EndsWord (e.typeLexemes ++ .mark "\x7b" :: ls) := by
  rw [typeLexemes]
  cases e.type with
  | none => exact ⟨_, _, rfl, .inr ⟨'\x7b', rfl, by decide⟩⟩
  | some t => exact ⟨_, _, rfl, .inr ⟨':', rfl, by decide⟩⟩

theorem endsWord_name (e : FullEnum) (ls : List Lexeme) :
    EndsWord (e.name.toList.map (·.lexeme) ++ (e.typeLexemes ++ .mark "\x7b" :: ls)) := by
  cases e.name with
  | none => exact e.endsWord_type ls
  | some n => exact endsWord_word n.text _

theorem endsWord_key (e : FullEnum) (ls : List Lexeme) :
    EndsWord (e.key.toList.map (.word ·.keyword) ++
      (e.name.toList.map (·.lexeme) ++ (e.typeLexemes ++ .mark "\x7b" :: ls))) := by
  cases e.key with
  | none => exact e.endsWord_name ls
  | some k => exact endsWord_word k.keyword _

theorem skipScopeWord_spread (h : Spread (e.key.toList.map (.word ·.keyword) ++
      (e.name.toList.map (·.lexeme) ++ (e.typeLexemes ++ .mark "\x7b" :: ls))) cs) :
    ∃ ds, Spread (e.name.toList.map (·.lexeme) ++ (e.typeLexemes ++ .mark "\x7b" :: ls)) ds ∧
      ∀ rest, skipScopeWord (trimStart (cs ++ rest)) = trimStart (ds ++ rest) := by
  cases hk : e.key with
  | some k =>
    rw [hk] at h
    have hword : isIdentifier k.keyword = true := by cases k <;> decide
    obtain ⟨ds, hds, hstop, h⟩ := Spread.front (l := .word k.keyword) h (word_front hword)
    refine ⟨ds, h, fun rest => ?_⟩
    have hend := h.startsWord (e.endsWord_name ls) (hstop rfl) rest
    rw [hds rest, Lexeme.chars, Lexeme.word, skipScopeWord]
    cases k with
    | isClass => rw [ClassKey.keyword, afterWord?_self hend, Option.some_or]
    | isStruct =>
      rw [ClassKey.keyword, afterWord?_self hend,
        afterWord?_other (by decide) (by decide) hend (by decide), Option.none_or]
  | none =>
    rw [hk] at h
    refine ⟨cs, h, fun rest => ?_⟩
    have hnone : ∀ word ∈ ["class", "struct"], afterWord? word (trimStart (cs ++ rest)) = none := by
      intro word hword
      cases hn : e.name with
      | none =>
        rw [hn] at h
        obtain ⟨c, r, hc, hmem⟩ := e.typeLexemes_front h rest
        rw [hc]
        revert hword hmem
        simp only [List.mem_cons, List.not_mem_nil, or_false]
        rintro (rfl | rfl) (rfl | rfl) <;> rfl
      | some n =>
        rw [hn] at h
        obtain ⟨hid, hclass, hstruct⟩ := identifier_of_isEnumName n.holds
        obtain ⟨ds, hds, hstop, h⟩ := Spread.front (l := n.lexeme) h (word_front hid)
        have hend := h.startsWord (e.endsWord_type ls) (hstop rfl) rest
        have hchars : ∀ w ∈ ["class", "struct"], ∀ c ∈ w.toList, isNameChar c = true := by decide
        rw [hds rest]
        refine afterWord?_other (hchars word hword) (identifier_spec hid).2 hend fun he => ?_
        have he : n.text = word := String.toList_inj.mp he
        simp only [List.mem_cons, List.not_mem_nil, or_false] at hword
        exact hword.elim (fun hw => hclass (he.trans hw)) fun hw => hstruct (he.trans hw)
    rw [skipScopeWord, hnone "class" (by simp), hnone "struct" (by simp), Option.or_none]

theorem enumName_spread
    (h : Spread (e.name.toList.map (·.lexeme) ++ (e.typeLexemes ++ .mark "\x7b" :: ls)) cs) :
    ∃ ds, Spread (e.typeLexemes ++ .mark "\x7b" :: ls) ds ∧
      ∀ rest, ∃ r, enumName (trimStart (cs ++ rest)) = (e.name.map (·.text), r) ∧
        trimStart r = trimStart (ds ++ rest) := by
  cases hn : e.name with
  | some n =>
    rw [hn] at h
    obtain ⟨hid, -⟩ := identifier_of_isEnumName n.holds
    obtain ⟨hs, hw⟩ := identifier_spec hid
    obtain ⟨ds, hds, hstop, h⟩ := Spread.front (l := n.lexeme) h (word_front hid)
    refine ⟨ds, h, fun rest => ⟨ds ++ rest, ?_, rfl⟩⟩
    have hname : Text.name? (n.text.toList ++ (ds ++ rest)) = some (n.text.toList, ds ++ rest) :=
      name?_self hs hw (h.startsWord (e.endsWord_type ls) (hstop rfl) rest)
    have hfront : trimStart (cs ++ rest) = n.text.toList ++ (ds ++ rest) := hds rest
    simp only [enumName, hfront, hname, String.ofList_toList, Option.map_some]
  | none =>
    rw [hn] at h
    refine ⟨cs, h, fun rest => ⟨trimStart (cs ++ rest), ?_, ?_⟩⟩
    · obtain ⟨c, r, hc, hmem⟩ := e.typeLexemes_front h rest
      have hstart : isNameStart c = false := by
        simp only [List.mem_cons, List.not_mem_nil, or_false] at hmem
        rcases hmem with rfl | rfl <;> rfl
      rw [hc, enumName, Text.name?, hstart]
      rfl
    · rcases trimStart_eq_nil_or (cs ++ rest) with he | ⟨c, r, he, hc⟩
      · rw [he]
        rfl
      · rw [he, trimStart_cons hc]

theorem skipUnderlying?_spread
    (hplain : ∀ t ∈ e.type, ∀ l ∈ t.lexemes, ∀ c ∈ l.chars, isTypeChar c = true)
    (h : Spread (e.typeLexemes ++ .mark "\x7b" :: ls) cs) :
    ∃ ds, Spread ls ds ∧
      ∀ rest, skipUnderlying? (trimStart (cs ++ rest)) = some ('\x7b' :: (ds ++ rest)) := by
  rw [typeLexemes] at h
  cases ht : e.type with
  | none =>
    rw [ht] at h
    obtain ⟨ds, hds, -, h⟩ := Spread.front (l := .mark "\x7b") h rfl
    refine ⟨ds, h, fun rest => ?_⟩
    rw [hds rest]
    rfl
  | some t =>
    rw [ht] at h
    simp only [Option.toList_some, List.flatMap_singleton, List.cons_append] at h
    obtain ⟨ds, hds, -, h⟩ := Spread.front (l := .mark ":") h rfl
    obtain ⟨as, bs, rfl, has, hbs⟩ := h.split
    refine ⟨bs, hbs, fun rest => ?_⟩
    have htype : ∀ c ∈ as, isTypeChar c = true := has.forall_mem
      (fun c hc => by simp [isTypeChar, isBlank_of_isSpace hc]) (hplain t (by rw [ht]; rfl))
    have hne : as ≠ [] := by
      obtain ⟨l, ms, hl⟩ := List.exists_cons_of_ne_nil t.ne_nil
      rw [hl] at has
      obtain ⟨sp, r, rfl, -, hread, -⟩ := has.uncons
      simp [Lexeme.IsRead.ne_nil hread]
    have htext : as ++ ((Lexeme.mark "\x7b").chars ++ bs) ++ rest =
        as ++ '\x7b' :: (bs ++ rest) := by simp [Lexeme.chars, Lexeme.mark]
    have hbrace : isTypeChar '\x7b' = false := by decide
    have htake : (as ++ '\x7b' :: (bs ++ rest)).takeWhile isTypeChar = as := by
      rw [List.takeWhile_append_of_pos htype, List.takeWhile_cons_of_neg (by simp [hbrace]),
        List.append_nil]
    have hdrop : (as ++ '\x7b' :: (bs ++ rest)).dropWhile isTypeChar = '\x7b' :: (bs ++ rest) := by
      rw [List.dropWhile_append_of_pos htype, List.dropWhile_cons_of_neg (by simp [hbrace])]
    rw [hds rest, htext]
    show skipUnderlying? (':' :: (as ++ '\x7b' :: (bs ++ rest))) = _
    rw [skipUnderlying?, if_pos rfl, htake, hdrop, if_neg (by simpa using hne)]

end FullEnum

/-! ## The items -/

theorem trim_spaces {cs : List Char} (h : ∀ c ∈ cs, isSpace c = true) : trim cs = [] := by
  have hstart := trimStart_blanks (fun c hc => isBlank_of_isSpace (h c hc)) []
  rw [List.append_nil] at hstart
  rw [trim, hstart]
  rfl

theorem memberNames?_cons (item : List Char) {items : List (List Char)} (h : items ≠ []) :
    memberNames? (item :: items) =
      (memberName? (trim item)).bind fun n => (memberNames? items).map (n :: ·) := by
  obtain ⟨i, is, rfl⟩ := List.exists_cons_of_ne_nil h
  rw [memberNames?]
  cases memberName? (trim item) with
  | none => rfl
  | some n => rfl
  exact h

theorem length_of_memberNames? {items : List (List Char)} {names : List String}
    (h : memberNames? items = some names) :
    names.length = items.length ∨
      names.length + 1 = items.length ∧ ∀ i ∈ items.getLast?, trim i = [] := by
  fun_induction memberNames? items generalizing names with
  | case1 => cases h; exact .inl rfl
  | case2 last hl =>
    cases h
    refine .inr ⟨rfl, fun i hi => ?_⟩
    cases hi
    exact List.isEmpty_iff.mp hl
  | case3 last hl =>
    obtain ⟨n, -, rfl⟩ := Option.map_eq_some_iff.mp h
    exact .inl rfl
  | case4 => cases h
  | case5 item items hne name hn ih =>
    obtain ⟨ns, hns, rfl⟩ := Option.map_eq_some_iff.mp h
    rcases ih hns with hlen | ⟨hlen, hlast⟩
    · exact .inl (by simp [hlen])
    · refine .inr ⟨by simp [hlen], fun i hi => hlast i ?_⟩
      obtain ⟨j, js, rfl⟩ := List.exists_cons_of_ne_nil (show items ≠ [] from fun he => hne he)
      rwa [List.getLast?_cons_cons] at hi

theorem length_split (mark : Char) (cs : List Char) :
    (split mark cs).length = cs.count mark + 1 := by
  induction cs with
  | nil => rfl
  | cons c r ih =>
    obtain ⟨p, ps, hps⟩ := List.exists_cons_of_ne_nil (split_ne_nil mark r)
    rw [split]
    split
    · next h => rw [h, List.length_cons, ih, List.count_cons_self]
    · next h =>
      rw [hps] at ih ⊢
      rw [List.count_cons_of_ne h, ← ih]
      rfl

theorem getLast?_split {mark : Char} {cs : List Char} (h : mark ∈ cs) :
    ∃ as bs, cs = as ++ mark :: bs ∧ (split mark cs).getLast? = some bs := by
  induction cs with
  | nil => cases h
  | cons c r ih =>
    by_cases hr : mark ∈ r
    · obtain ⟨as, bs, hcat, hlast⟩ := ih hr
      refine ⟨c :: as, bs, by rw [hcat]; rfl, ?_⟩
      have hlen := length_split mark r
      have hcount := List.count_pos_iff.mpr hr
      rcases hs : split mark r with _ | ⟨p, _ | ⟨q, qs⟩⟩
      · exact absurd hs (split_ne_nil mark r)
      · rw [hs, List.length_singleton] at hlen
        omega
      · rw [hs] at hlast
        rw [split, hs]
        split <;> simpa using hlast
    · obtain rfl : mark = c := by simpa [hr] using h
      exact ⟨[], r, rfl, by rw [split, if_pos rfl, split_of_notMem hr]; rfl⟩

namespace Enumerator

variable {m : Enumerator} {cs : List Char}

theorem memberName?_spread (h : Spread m.lexemes cs) :
    (trim cs).isEmpty = false ∧ memberName? (trim cs) = some m.name.text := by
  obtain ⟨hs, hw⟩ := identifier_spec m.name.holds
  obtain ⟨ds, hds, hstop, h⟩ := Spread.front (l := m.name.lexeme) h (word_front m.name.holds)
  have hne : m.name.text.toList ≠ [] := fun he => by rw [he] at hs; cases hs
  have htrim : trim cs = m.name.text.toList ++ trimEnd ds := by
    have hfront : trimStart cs = m.name.text.toList ++ ds := by
      have hfront := hds []
      rw [List.append_nil, List.append_nil] at hfront
      exact hfront
    obtain ⟨r, c, hr⟩ := (List.eq_nil_or_concat' _).resolve_left hne
    have hc : isBlank c = false := isBlank_of_isNameChar (hw c (by rw [hr]; simp))
    rw [trim, hfront, hr, List.append_assoc, List.append_assoc, List.singleton_append,
      trimEnd_append_of_last hc, List.singleton_append]
  -- Behind the name stands nothing but blanks, or an equals sign.
  have hend : startsWord (trimEnd ds) = false ∧
      (trimStart (trimEnd ds) = [] ∨ ∃ r, trimStart (trimEnd ds) = '=' :: r) := by
    cases hv : m.value with
    | none =>
      rw [hv] at h
      have hblank : trimEnd ds = [] := by
        cases h with
        | nil hsp => exact trimEnd_eq_nil (trim_spaces hsp)
      rw [hblank]
      exact ⟨rfl, .inl rfl⟩
    | some v =>
      rw [hv] at h
      have hparts : EndsWord (.mark "=" :: v.lexemes ++ []) :=
        ⟨_, _, rfl, .inr ⟨'=', rfl, by decide⟩⟩
      have hstarts := h.startsWord hparts (hstop rfl) []
      obtain ⟨r, hr, -⟩ := Spread.front (l := .mark "=") h rfl
      have hr : trimStart ds = '=' :: r := by
        have hfront := hr []
        rw [List.append_nil, List.append_nil] at hfront
        exact hfront
      refine ⟨?_, .inr ⟨trimEnd r, ?_⟩⟩
      · obtain ⟨x, hx⟩ := trimEnd_front ds
        rw [List.append_nil, ← hx] at hstarts
        cases he : trimEnd ds with
        | nil => rfl
        | cons c y => rw [he] at hstarts; exact hstarts
      · rw [trimStart_trimEnd, trim, hr, trimEnd_cons (by decide)]
  have hname := name?_self hs hw hend.1
  rw [htrim]
  refine ⟨List.isEmpty_eq_false_iff.mpr (List.append_ne_nil_of_left_ne_nil hne _), ?_⟩
  rw [memberName?, hname]
  rcases hend.2 with he | ⟨r, he⟩ <;> simp [he]

/-- What holds of the characters of names and values and of the equals sign holds of a member. -/
theorem forall_chars {P : Char → Prop} (m : Enumerator) (hname : ∀ c, isNameChar c = true → P c)
    (heq : P '=') (hvalue : ∀ l ∈ m.valueLexemes, ∀ c ∈ l.chars, P c) :
    ∀ l ∈ m.lexemes, ∀ c ∈ l.chars, P c := by
  refine List.forall_mem_cons.mpr
    ⟨fun c hc => hname c ((identifier_spec m.name.holds).2 c hc), fun l hl => ?_⟩
  obtain ⟨v, hv, hl⟩ := List.mem_flatMap.mp hl
  rcases List.mem_cons.mp hl with rfl | hl
  · exact fun c hc => List.mem_singleton.mp hc ▸ heq
  · exact hvalue l (List.mem_flatMap.mpr ⟨v, hv, hl⟩)

end Enumerator

namespace FullEnum

variable {cs : List Char}

theorem itemLexemes_cons (m : Enumerator) (items : List Enumerator) (trailing : Bool) :
    itemLexemes (m :: items) trailing = m.lexemes ++
      if items.isEmpty && !trailing then [] else .mark "," :: itemLexemes items trailing := by
  rw [itemLexemes, List.map_cons, commas_cons]
  cases items <;> cases trailing <;> simp [itemLexemes, commas]

/-- Where no comma stands in a value, none stands in the member. -/
theorem notMem_comma {m : Enumerator} (hm : ∀ l ∈ m.valueLexemes, ',' ∉ l.chars)
    (h : Spread m.lexemes cs) : ',' ∉ cs := by
  have hlexemes : ∀ l ∈ m.lexemes, ∀ c ∈ l.chars, c ≠ ',' := m.forall_chars
    (fun c hc => ne_of_isNameChar hc (by decide)) (by decide) fun l hl c hc he => hm l hl (he ▸ hc)
  exact h.notMem (by decide) fun l hl hc => hlexemes l hl _ hc rfl

/-- The members are read where no comma stands in a value. -/
theorem memberNames?_spread {items : List Enumerator} {trailing : Bool}
    (hplain : ∀ m ∈ items, ∀ l ∈ m.valueLexemes, ',' ∉ l.chars)
    (h : Spread (itemLexemes items trailing) cs) :
    memberNames? (split ',' cs) = some (items.map (·.name.text)) := by
  induction items generalizing cs with
  | nil =>
    have hnil : itemLexemes [] trailing = [] := by cases trailing <;> rfl
    rw [hnil] at h
    cases h with
    | nil hsp =>
      rw [split_of_notMem fun hm => absurd (hsp _ hm) (by decide), memberNames?, trim_spaces hsp]
      rfl
  | cons m items ih =>
    obtain ⟨hm, hitems⟩ := List.forall_mem_cons.mp hplain
    rw [itemLexemes_cons] at h
    split at h
    · next hlast =>
      obtain ⟨rfl, -⟩ : items = [] ∧ trailing = false := by simpa using hlast
      rw [List.append_nil] at h
      obtain ⟨hne, hname⟩ := Enumerator.memberName?_spread h
      rw [split_of_notMem (notMem_comma hm h), memberNames?, hne, hname]
      rfl
    · obtain ⟨as, bs, rfl, has, hbs⟩ := h.split
      obtain ⟨-, hname⟩ := Enumerator.memberName?_spread has
      have hsplit : split ',' (as ++ ((Lexeme.mark ",").chars ++ bs)) = as :: split ',' bs :=
        split_append (notMem_comma hm has) bs
      rw [hsplit, memberNames?_cons _ (split_ne_nil _ _), hname, Option.bind_some, ih hitems hbs]
      rfl

/-! ## Plain enums are read -/

theorem lexemes_eq (e : FullEnum) : e.lexemes =
    .word "enum" :: (e.key.toList.map (.word ·.keyword) ++ (e.name.toList.map (·.lexeme) ++
      (e.typeLexemes ++ e.bodyLexemes))) := by
  simp [lexemes, headLexemes]

theorem isBrace_body {items : List Enumerator} {trailing : Bool}
    (hvalues : ∀ m ∈ items, ∀ l ∈ m.valueLexemes, ∀ c ∈ l.chars, isBrace c = false)
    (h : Spread (itemLexemes items trailing) cs) : ∀ c ∈ cs, isBrace c = false := by
  have hbrace : ∀ c, isBrace c = true → isSpace c = false ∧ isNameChar c = false := fun c hc => by
    simp only [isBrace, Bool.or_eq_true, beq_iff_eq] at hc
    rcases hc with rfl | rfl <;> decide
  have hcomma : ∀ c ∈ (Lexeme.mark ",").chars, isBrace c = false := by decide
  refine h.forall_mem (fun c hc => Bool.eq_false_iff.mpr fun hb => ?_) fun l hl => ?_
  · rw [(hbrace c hb).1] at hc
    cases hc
  rcases List.mem_append.mp hl with hl | hl
  · have hitems : ∀ i ∈ items.map (·.lexemes), ∀ l ∈ i, ∀ c ∈ l.chars, isBrace c = false := by
      refine List.forall_mem_map.mpr fun m hm => m.forall_chars (fun c hc => ?_) rfl (hvalues m hm)
      refine Bool.eq_false_iff.mpr fun hb => ?_
      rw [(hbrace c hb).2] at hc
      cases hc
    exact forall_commas (P := fun l => ∀ c ∈ l.chars, isBrace c = false) hcomma hitems l hl
  · split at hl
    · rw [List.mem_singleton.mp hl]
      exact hcomma
    · cases hl

/-- The head, the body and the semicolon make up an enum. -/
theorem enumDecl?_of_parts {cs c1 c2 body gap rest : List Char} {name : Option String}
    {members : List String} (hword : afterWord? "enum" cs = some c1)
    (hname : enumName (skipScopeWord (trimStart c1)) = (name, c2))
    (htype : skipUnderlying? (trimStart c2) =
      some ('\x7b' :: (body ++ '\x7d' :: (gap ++ ';' :: rest))))
    (hbody : ∀ c ∈ body, isBrace c = false) (hgap : ∀ c ∈ gap, isBlank c = true)
    (hmembers : memberNames? (split ',' body) = some members) :
    enumDecl? cs = some (⟨name, members⟩, rest) := by
  have hin : ∀ c ∈ body, (!isBrace c) = true := fun c hc => by rw [hbody c hc]; rfl
  have htake : (body ++ '\x7d' :: (gap ++ ';' :: rest)).takeWhile (!isBrace ·) = body := by
    rw [List.takeWhile_append_of_pos hin, List.takeWhile_cons_of_neg (by decide), List.append_nil]
  have hdrop : (body ++ '\x7d' :: (gap ++ ';' :: rest)).dropWhile (!isBrace ·) =
      '\x7d' :: (gap ++ ';' :: rest) := by
    rw [List.dropWhile_append_of_pos hin, List.dropWhile_cons_of_neg (by decide)]
  have hsemi : trimStart (gap ++ ';' :: rest) = ';' :: rest := by
    rw [trimStart_blanks hgap]
    exact trimStart_cons (by decide) _
  rw [enumDecl?, hword]
  simp only [Option.bind_eq_bind, Option.bind_some, hname, htype, afterMark?, if_true, htake, hdrop,
    hsemi, hmembers]

theorem enumDecl?_of_plain {e : FullEnum} (hp : e.Plain) (ht : Trimmed cs)
    (h : Spread e.lexemes cs) (rest : List Char) :
    enumDecl? (cs ++ rest) = some (e.value, rest) := by
  rw [lexemes_eq] at h
  obtain ⟨sp, ds, hcs, hsp, -, hstop, h⟩ := h.uncons
  have hcs : cs = "enum".toList ++ ds := by
    cases sp with
    | nil => exact hcs
    | cons c sp =>
      obtain ⟨c', r, he, hc'⟩ := ht.head
      rw [hcs] at he
      obtain ⟨rfl, -⟩ := List.cons.inj he
      rw [isBlank_of_isSpace (hsp c List.mem_cons_self)] at hc'
      cases hc'
  have hword : afterWord? "enum" (cs ++ rest) = some (ds ++ rest) := by
    rw [hcs, List.append_assoc]
    exact afterWord?_self (h.startsWord (e.endsWord_key _) (hstop rfl) rest)
  -- The head is read part by part, and the body is what stands behind it.
  obtain ⟨ds1, h1, hkey⟩ := skipScopeWord_spread h
  obtain ⟨ds2, h2, hname⟩ := enumName_spread h1
  obtain ⟨r, hname, hr⟩ := hname rest
  obtain ⟨ds3, h3, htype⟩ := skipUnderlying?_spread hp.type h2
  obtain ⟨body, ds4, rfl, hbody, h4⟩ := Spread.split (l := .mark "\x7d") h3
  obtain ⟨gap, last, rfl, hgap, -, -, h5⟩ := h4.uncons
  have hlast : ∀ c ∈ last, isSpace c = true := by cases h5; assumption
  have hread : enumDecl? (cs ++ rest) = some (e.value, last ++ rest) := by
    refine enumDecl?_of_parts hword (by rw [hkey rest, hname]) ?_
      (isBrace_body (fun m hm l hl c hc => ?_) hbody) (fun c hc => isBlank_of_isSpace (hgap c hc))
      (memberNames?_spread (fun m hm l hl hc => hp.values m hm l hl _ hc (by simp)) hbody)
    · rw [hr, htype rest]
      simp [Lexeme.chars, Lexeme.mark]
    · have hno := hp.values m hm l hl c hc
      simp only [List.mem_cons, List.not_mem_nil, or_false, not_or] at hno
      simp [isBrace, hno.2]
  -- Behind the semicolon stands nothing more, for there the text ends.
  have hnil : last = [] := by
    obtain ⟨front, hfront⟩ := semicolon_of_enumDecl? hread
    have hcut : front ++ ';' :: last = cs := by
      rw [← List.cons_append, ← List.append_assoc] at hfront
      exact List.append_cancel_right hfront
    by_contra hne
    obtain ⟨r, c, rfl⟩ := (List.eq_nil_or_concat' last).resolve_left hne
    have hblank := ht.isBlank_last c (by
      rw [← hcut, ← List.cons_append, ← List.append_assoc, List.getLast?_concat]
      rfl)
    rw [isBlank_of_isSpace (hlast c (by simp))] at hblank
    cases hblank
  rw [hread, hnil, List.nil_append]

end FullEnum

end HeaderOutline
