import HeaderOutline.Proofs.EnumLines
import HeaderOutline.Proofs.EnumValues
/-!
# Enums that are read completely

Plain enums are read with all their members. The converse holds as well: an enum that is read with
as many members as it has, up to its own end, is plain. Every comma counts, for behind a comma in a
value stands the bracket that closes around it, so the item there cannot be an empty last one. And a
brace in a value would be the one that ends the body.

The lines of an enum are joined until its semicolon is there. A beginning of it holds no semicolon
but in literals, so it is neither an enum nor a statement.

Results:
* `FullEnum.plain_of_layout`: where the members are read as they are written, the enum is plain.
* `FullEnum.Spans.refuses_beginning`: with too few lines there is neither an enum nor a statement.
* `State.readEnum_iff_plain`: an enum is reported as it is written exactly when it is plain.
-/
namespace HeaderOutline
open Text Declaration

/-! ## Commas in values -/

/-- In enclosed lexemes every comma is followed by the bracket that closes around it. -/
theorem commasFollowed_of_enclosed {depth : Nat} {ls : List Lexeme}
    (h : enclosed depth ls = true) :
    CommasFollowed ls ∧ (0 < depth → ∃ l ∈ ls, l.text = ")") := by
  induction ls generalizing depth with
  | nil => exact ⟨trivial, fun hd => absurd (beq_iff_eq.mp h) (Nat.ne_of_gt hd)⟩
  | cons l ls ih =>
    have hbehind : (∃ k ∈ ls, k.text = ")") → ∃ k ∈ l :: ls, k.text = ")" :=
      fun ⟨k, hk, ht⟩ => ⟨k, List.mem_cons_of_mem _ hk, ht⟩
    rw [enclosed] at h
    split at h
    · next hl =>
      obtain ⟨hf, hclose⟩ := ih h
      exact ⟨⟨fun hc => absurd (hl.symm.trans hc) (by decide), hf⟩,
        fun _ => hbehind (hclose (Nat.succ_pos _))⟩
    · split at h
      · next hl =>
        rw [Bool.and_eq_true] at h
        exact ⟨⟨fun hc => absurd (hl.symm.trans hc) (by decide), (ih h.2).1⟩,
          fun _ => ⟨l, List.mem_cons_self, hl⟩⟩
      · rw [Bool.and_eq_true, Bool.or_eq_true, bne_iff_ne, decide_eq_true_eq] at h
        obtain ⟨hf, hclose⟩ := ih h.2
        refine ⟨⟨fun hc => ?_, hf⟩, fun hd => hbehind (hclose hd)⟩
        obtain ⟨k, hk, ht⟩ := hclose (h.1.resolve_left fun hne => hne hc)
        exact ⟨k, hk, ')', by rw [Lexeme.chars, ht]; decide, by decide⟩

namespace Enumerator

def commaCount (m : Enumerator) : Nat :=
  (m.valueLexemes.flatMap Lexeme.chars).count ','

theorem lexemes_eq (m : Enumerator) : m.lexemes = .word m.name.text ::
    ((if m.value.isSome then [.mark "="] else []) ++ m.valueLexemes) := by
  rw [lexemes, valueLexemes]
  cases m.value <;> simp [WordOf.lexeme]

theorem count_lexemes (m : Enumerator) :
    (m.lexemes.flatMap Lexeme.chars).count ',' = m.commaCount := by
  have hname : m.name.text.toList.count ',' = 0 := List.count_eq_zero.mpr fun hm =>
    absurd ((identifier_spec m.name.holds).2 _ hm) (by decide)
  rw [m.lexemes_eq, commaCount, List.flatMap_cons, List.flatMap_append, List.count_append,
    List.count_append]
  show m.name.text.toList.count ',' + _ = _
  rw [hname]
  split <;> simp [Lexeme.chars, Lexeme.mark]

theorem commasFollowed (m : Enumerator) : CommasFollowed m.lexemes := by
  have hname : m.name.text ≠ "," := fun he =>
    absurd ((identifier_spec m.name.holds).2 ',' (by rw [he]; decide)) (by decide)
  refine ⟨fun he => absurd he hname, ?_⟩
  cases m.value with
  | none => trivial
  | some v =>
    rw [Option.toList_some, List.flatMap_singleton]
    exact ⟨fun he => absurd he (by decide), (commasFollowed_of_enclosed v.enclosed).1⟩

end Enumerator

namespace FullEnum

variable {cs : List Char}

theorem count_itemLexemes {items : List Enumerator} (hne : items ≠ []) (trailing : Bool) :
    ((itemLexemes items trailing).flatMap Lexeme.chars).count ',' + 1 =
      items.length + (items.map (·.commaCount)).sum + trailing.toNat := by
  induction items with
  | nil => exact absurd rfl hne
  | cons m items ih =>
    rw [itemLexemes_cons, List.flatMap_append, List.count_append, m.count_lexemes, List.length_cons,
      List.map_cons, List.sum_cons]
    cases items with
    | nil => cases trailing <;> simp [itemLexemes, commas, Lexeme.chars, Lexeme.mark] <;> omega
    | cons k items =>
      have ih := ih (List.cons_ne_nil k items)
      have hcomma : ((Lexeme.mark ",").chars).count ',' = 1 := by decide
      rw [List.isEmpty_cons, Bool.false_and, if_neg Bool.false_ne_true, List.flatMap_cons,
        List.count_append, hcomma]
      omega

/-- Without a comma at its end, every comma of the body is followed by something. -/
theorem commasFollowed_items (items : List Enumerator) :
    CommasFollowed (itemLexemes items false) := by
  induction items with
  | nil => trivial
  | cons m items ih =>
    rw [itemLexemes_cons]
    refine m.commasFollowed.append ?_
    cases items with
    | nil => trivial
    | cons k items =>
      refine ⟨fun _ => ⟨k.name.lexeme, ?_, ?_⟩, ih⟩
      · rw [itemLexemes_cons]
        exact List.mem_append_left _ List.mem_cons_self
      · obtain ⟨c, hc, hb⟩ := (Option.any_eq_true _ _).mp (word_front k.name.holds)
        exact ⟨c, List.mem_of_head? hc, by simpa using hb⟩

/-- Where as many members are read as there are, no comma stands in a value. -/
theorem commaCount_of_memberNames? {items : List Enumerator} {trailing : Bool}
    (h : Spread (itemLexemes items trailing) cs) {names : List String}
    (hm : memberNames? (split ',' cs) = some names) (hlen : names.length = items.length) :
    ∀ m ∈ items, m.commaCount = 0 := by
  by_cases hne : items = []
  · rw [hne]
    exact fun m hm => absurd hm List.not_mem_nil
  have hcount := count_itemLexemes hne trailing
  have hpos := List.length_pos_iff.mpr hne
  have hsplit := length_split ',' cs
  have hcs := h.count (c := ',') (by decide)
  have hsum : (items.map (·.commaCount)).sum = 0 := by
    rcases length_of_memberNames? hm with hall | ⟨hall, hlast⟩
    · omega
    cases trailing with
    | true =>
      rw [Bool.toNat_true] at hcount
      omega
    | false =>
      -- An empty last item would stand behind a comma with nothing behind it.
      rw [Bool.toNat_false] at hcount
      by_contra hsum
      have hmem : ',' ∈ cs := List.count_pos_iff.mp (by omega)
      obtain ⟨as, bs, hcut, hbs⟩ := getLast?_split hmem
      obtain ⟨c, hc, hb⟩ := h.solid_behind (commasFollowed_items items) hcut
      obtain ⟨x, y, rfl⟩ := List.append_of_mem hc
      have hnil := trimEnd_eq_nil (hlast _ hbs)
      rw [trimEnd_append_of_last hb] at hnil
      exact absurd hnil (by simp)
  intro m hm
  exact List.sum_eq_zero_iff_forall_eq_nat.mp hsum _ (List.mem_map_of_mem hm)

/-! ## Enums that are read are plain -/

theorem notMem_head {e : FullEnum} (h : Spread e.headLexemes cs) : '\x7b' ∉ cs := by
  have hidentifier : ∀ {w : String}, isIdentifier w = true → '\x7b' ∉ w.toList := fun hw hm =>
    absurd ((identifier_spec hw).2 _ hm) (by decide)
  have htype : ∀ l ∈ e.typeLexemes, '\x7b' ∉ l.chars := by
    intro l hl hm
    have hread := h.isRead l (by simp [headLexemes, hl])
    rw [typeLexemes] at hl
    cases ht : e.type with
    | none => simp [ht] at hl
    | some t =>
      rw [ht, Option.toList_some, List.flatMap_singleton] at hl
      rcases List.mem_cons.mp hl with rfl | hl
      · exact absurd hm (by decide)
      · have htext := hread.text_of_mem (t.noLiteral l hl) hm (by decide) (by decide)
        exact t.noDelimiter l hl (by rw [htext]; simp)
  refine h.notMem (by decide) fun l hl hc => ?_
  simp only [headLexemes, List.mem_cons, List.mem_append, List.mem_map, Option.mem_toList] at hl
  rcases hl with rfl | ⟨k, -, rfl⟩ | ⟨n, -, rfl⟩ | hl
  · exact absurd hc (by decide)
  · cases k <;> exact absurd hc (by decide)
  · exact hidentifier (identifier_of_isEnumName n.holds).1 hc
  · exact htype l hl hc

theorem mem_itemLexemes {items : List Enumerator} {m : Enumerator} {l : Lexeme} (hm : m ∈ items)
    (hl : l ∈ m.lexemes) (trailing : Bool) : l ∈ itemLexemes items trailing := by
  induction items with
  | nil => cases hm
  | cons k items ih =>
    rw [itemLexemes_cons]
    rcases List.mem_cons.mp hm with rfl | hm
    · exact List.mem_append_left _ hl
    · have hne : items.isEmpty = false := List.isEmpty_eq_false_iff.mpr (List.ne_nil_of_mem hm)
      rw [hne, Bool.false_and, if_neg Bool.false_ne_true]
      exact List.mem_append_right _ (List.mem_cons_of_mem _ (ih hm))

/-- Where the text is laid out as an enum with as many members, up to its own end, the enum is
plain. -/
theorem plain_of_layout {e : FullEnum} {rest head body gap : List Char}
    (h : Spread e.lexemes cs) (hl : EnumLayout (cs ++ rest) head body gap rest)
    (hm : memberNames? (split ',' body) = some e.value.members) : e.Plain := by
  obtain ⟨as, bs, rfl, has, hbs⟩ := Spread.split (l := .mark "\x7b") h
  obtain ⟨items, tail, rfl, hitems, htail⟩ := Spread.split (l := .mark "\x7d") hbs
  have htext : as ++ '\x7b' :: (items ++ '\x7d' :: tail) =
      head ++ '\x7b' :: (body ++ '\x7d' :: (gap ++ [';'])) := by
    have hwhole := hl.text
    rw [← List.append_cancel_right_eq _ rest]
    simpa [Lexeme.chars, Lexeme.mark] using hwhole
  -- The first brace opens the body in both, and the last one closes it.
  obtain ⟨rfl, hbody⟩ := append_mark_inj (notMem_head has) (hl.notMem_head (by decide))
    htext
  have htail : '\x7d' ∉ tail := htail.notMem (by decide) (by decide)
  have hgap : '\x7d' ∉ gap ++ [';'] := fun hm => by
    rcases List.mem_append.mp hm with hm | hm
    · exact absurd (hl.isBlank_gap _ hm) (by decide)
    · exact absurd (List.mem_singleton.mp hm) (by decide)
  obtain ⟨rfl, -⟩ := append_mark_inj_right htail hgap hbody
  have hcommas := commaCount_of_memberNames? hitems hm (List.length_map _)
  constructor
  · intro t ht l hl' c hc
    have hmem : l ∈ e.headLexemes := by
      rw [headLexemes, typeLexemes, Option.mem_def.mp ht]
      simp [hl']
    exact hl.isTypeChar_head c (has.mem hmem c hc)
  · intro m hm l hl' c hc hmark
    have hmem : l ∈ m.lexemes := by
      rw [m.lexemes_eq]
      exact List.mem_cons_of_mem _ (List.mem_append_right _ hl')
    have hbrace := hl.isBrace_body c (hitems.mem (mem_itemLexemes hm hmem e.trailing) c hc)
    simp only [List.mem_cons, List.not_mem_nil, or_false] at hmark
    rcases hmark with rfl | rfl | rfl
    · exact List.count_eq_zero.mp (hcommas m hm) (List.mem_flatMap.mpr ⟨l, hl', hc⟩)
    · exact absurd hbrace (by decide)
    · exact absurd hbrace (by decide)

end FullEnum

/-! ## Beginnings of a text -/

namespace Token

theorem tokens_ne_nil {cs : List Char} (h : ∃ c ∈ cs, isBlank c = false) : tokens cs ≠ [] := by
  intro hnil
  obtain ⟨c, hc, hb⟩ := h
  cases hn : next? cs with
  | some x =>
    rw [tokens_of_next? hn] at hnil
    cases hnil
  | none =>
    rw [isBlank_of_isSpace (isSpace_of_next?_none hn c hc)] at hb
    cases hb

/-- Up to a space a text has the tokens of the whole but the last, or a literal that is cut. -/
theorem tokens_beginning {as bs : List Char} (hbs : ∃ c ∈ bs, isBlank c = false)
    {P : Token → Prop} (h : ∀ t ∈ (tokens (as ++ ' ' :: bs)).dropLast, P t) :
    ∀ t ∈ tokens as, t.text.toList.head?.any isQuote = true ∨ P t := by
  fun_induction tokens as with
  | case1 => exact fun t ht => absurd ht List.not_mem_nil
  | case2 as t rest hn ih =>
    by_cases hcut : t.kind = .literal ∧ rest = []
    · obtain ⟨hkind, rfl⟩ := hcut
      rw [tokens_of_next?_none rfl]
      intro u hu
      rw [List.mem_singleton.mp hu]
      exact .inl (isQuote_head?_of_next? hn hkind)
    · have hnext := next?_append_blank_of_rest hn (fun hk hr => hcut ⟨hk, hr⟩) isBlank_space bs
      have hne : tokens (rest ++ ' ' :: bs) ≠ [] := tokens_ne_nil (by
        obtain ⟨c, hc, hb⟩ := hbs
        exact ⟨c, by simp [hc], hb⟩)
      rw [tokens_of_next? hnext, List.dropLast_cons_of_ne_nil hne] at h
      obtain ⟨ht, hrest⟩ := List.forall_mem_cons.mp h
      exact List.forall_mem_cons.mpr ⟨.inr ht, ih hrest⟩

end Token

namespace FullEnum

theorem lexemes_concat (e : FullEnum) :
    ∃ ls, e.lexemes = ls ++ [.mark ";"] ∧ ∀ l ∈ ls, l.text ≠ ";" := by
  have hidentifier : ∀ {w : String}, isIdentifier w = true → w ≠ ";" := fun hw he =>
    absurd ((identifier_spec hw).2 ';' (by rw [he]; decide)) (by decide)
  have hnone : ∀ {ls : List Lexeme}, NoDelimiter ls → ∀ l ∈ ls, l.text ≠ ";" := fun h l hl he =>
    h l hl (by rw [he]; simp)
  have hhead : ∀ l ∈ e.headLexemes, l.text ≠ ";" := by
    intro l hl
    simp only [headLexemes, typeLexemes, List.mem_cons, List.mem_append, List.mem_map,
      List.mem_flatMap, Option.mem_toList] at hl
    rcases hl with rfl | ⟨k, -, rfl⟩ | ⟨n, -, rfl⟩ | ⟨t, -, rfl | hl⟩
    · decide
    · cases k <;> decide
    · exact hidentifier (identifier_of_isEnumName n.holds).1
    · decide
    · exact hnone t.noDelimiter l hl
  have hitems : ∀ l ∈ itemLexemes e.items e.trailing, l.text ≠ ";" := by
    intro l hl
    rcases List.mem_append.mp hl with hl | hl
    · refine forall_commas (P := fun l => l.text ≠ ";") (by decide) ?_ l hl
      refine List.forall_mem_map.mpr fun m _ l hl => ?_
      simp only [Enumerator.lexemes, List.mem_cons, List.mem_flatMap] at hl
      rcases hl with rfl | ⟨v, -, rfl | hl⟩
      · exact hidentifier m.name.holds
      · decide
      · exact hnone v.noDelimiter l hl
    · split at hl
      · rw [List.mem_singleton.mp hl]
        decide
      · cases hl
  refine ⟨e.headLexemes ++ .mark "\x7b" :: (itemLexemes e.items e.trailing ++ [.mark "\x7d"]),
    by simp [lexemes, bodyLexemes], List.forall_mem_append.mpr ⟨hhead, List.forall_mem_cons.mpr
      ⟨by decide, List.forall_mem_append.mpr ⟨hitems, by simp [Lexeme.mark]⟩⟩⟩⟩

/-- The text `cs` is that of the enum, and the lines `ls` are needed to complete it. -/
structure Spans (e : FullEnum) (cs text : List Char) (ls : List SourceLine) (rest : List Char) :
    Prop where
  tokens : (Token.tokens cs).map Token.bare = e.lexemes
  trimmed : Trimmed cs
  whole : withLines text ls = cs ++ rest
  needed : ∀ i < ls.length, ¬ cs <+: withLines text (ls.take i)

namespace Spans

variable {e : FullEnum} {cs text rest : List Char} {ls : List SourceLine}

theorem spread (h : e.Spans cs text ls rest) : Spread e.lexemes cs := by
  obtain ⟨init, hinit, -⟩ := e.lexemes_concat
  rw [← h.tokens]
  refine spread_of_tokens fun t ht hk => ?_
  have hlast : ((Token.tokens cs).map Token.bare).getLast? = some t.bare := by
    rw [List.getLast?_map, Option.mem_def.mp ht]
    rfl
  rw [h.tokens, hinit, List.getLast?_concat, Option.some.injEq] at hlast
  have hmark := congrArg Lexeme.kind hlast
  exact absurd (hmark.trans hk) (by decide)

/-- With too few lines, the text is that of the enum up to some space. -/
theorem beginning (h : e.Spans cs text ls rest) {i : Nat} (hi : i < ls.length) :
    ∃ bs, cs = withLines text (ls.take i) ++ ' ' :: bs ∧ ∃ c ∈ bs, isBlank c = false := by
  obtain ⟨ds, hds⟩ := exists_append_withLines text hi
  obtain ⟨x, hx⟩ : withLines text (ls.take i) <+: cs :=
    (List.prefix_or_prefix_of_prefix ⟨_, hds⟩ ⟨rest, h.whole.symm⟩).resolve_right (h.needed i hi)
  cases x with
  | nil =>
    rw [List.append_nil] at hx
    exact absurd (hx ▸ List.prefix_refl _) (h.needed i hi)
  | cons c bs =>
    rw [h.whole, ← hx, List.append_assoc] at hds
    obtain ⟨rfl, -⟩ := List.cons.inj (List.append_cancel_left hds)
    refine ⟨bs, hx.symm, ?_⟩
    have hlast := h.trimmed.isBlank_last
    rw [← hx] at hlast
    rcases List.eq_nil_or_concat' bs with rfl | ⟨r, c, rfl⟩
    · exact absurd (hlast ' ' (by simp)) (by decide)
    · rw [← List.cons_append, ← List.append_assoc, List.getLast?_concat] at hlast
      exact ⟨c, by simp, hlast c rfl⟩

/-- With too few lines, there is neither an enum nor a statement. -/
theorem refuses_beginning (h : e.Spans cs text ls rest) (hp : e.Plain) {i : Nat}
    (hi : i < ls.length) : enumDecl? (withLines text (ls.take i)) = none ∧
      afterStatement? (withLines text (ls.take i)) = none := by
  obtain ⟨bs, hcs, hbs⟩ := h.beginning hi
  generalize withLines text (ls.take i) = as at hcs
  constructor
  · refine Option.eq_none_iff_forall_ne_some.mpr fun ⟨d, r⟩ hd => ?_
    have hwhole := enumDecl?_of_plain hp h.trimmed h.spread rest
    rw [hcs, List.append_assoc] at hwhole
    have hlen := congrArg List.length (enumDecl?_append_rest hwhole hd)
    simp only [List.length_append, List.length_cons] at hlen
    omega
  · refine Option.eq_none_iff_forall_ne_some.mpr fun r hr => ?_
    obtain ⟨ts, hts, -⟩ := Option.map_eq_some_iff.mp hr
    obtain ⟨t, ht, hsemi⟩ := semicolon_of_afterSemicolon? hts
    obtain ⟨init, hinit, hne⟩ := e.lexemes_concat
    have htokens : ∀ t ∈ (Token.tokens (as ++ ' ' :: bs)).dropLast, t.text ≠ ";" := by
      intro t ht
      refine hne t.bare ?_
      have hmem := List.mem_map_of_mem (f := Token.bare) ht
      rwa [List.map_dropLast, ← hcs, h.tokens, hinit, List.dropLast_concat] at hmem
    rcases Token.tokens_beginning hbs htokens t ht with hquote | hno
    · rw [hsemi] at hquote
      exact absurd hquote (by decide)
    · exact hno hsemi

/-- The text ends with the semicolon. -/
theorem semicolon (h : e.Spans cs text ls rest) : ∃ r, cs = r ++ [';'] := by
  obtain ⟨init, hinit, -⟩ := e.lexemes_concat
  have hspread := h.spread
  rw [hinit] at hspread
  obtain ⟨as, bs, rfl, -, hbs⟩ := hspread.split
  refine ⟨as, ?_⟩
  rcases List.eq_nil_or_concat' bs with rfl | ⟨r, c, rfl⟩
  · rfl
  · have hb := h.trimmed.isBlank_last c (by simp)
    cases hbs with
    | nil hsp =>
      rw [isBlank_of_isSpace (hsp c (by simp))] at hb
      cases hb

end Spans
end FullEnum

/-! ## The reading -/

theorem requeue_inj {number : Nat} {rest rest' : List Char} {pending : List SourceLine}
    (h : requeue number rest pending = requeue number rest' pending) :
    trimStart rest = trimStart rest' := by
  have hne : ∀ l : SourceLine, l :: pending ≠ pending := fun l he =>
    Nat.succ_ne_self _ (congrArg List.length he)
  simp only [requeue] at h
  split at h <;> split at h
  · next h1 h2 => rw [List.isEmpty_iff.mp h1, List.isEmpty_iff.mp h2]
  · exact absurd h.symm (hne _)
  · exact absurd h (hne _)
  · exact congrArg SourceLine.text (List.cons.inj h).1

/-- Where the semicolon is followed by the same but for blanks, it is the same semicolon. -/
theorem rest_eq_of_suffix {cs rest rest' : List Char} (h : ';' :: rest' <:+ cs ++ ';' :: rest)
    (htrim : trimStart rest' = trimStart rest) : rest' = rest := by
  obtain ⟨front, hfront⟩ := h
  have hblanks : ∀ r : List Char, ';' ∉ r.takeWhile isBlank := fun r hm =>
    absurd (List.all_eq_true.mp List.all_takeWhile _ hm) (by decide)
  have hsplit : ∀ r : List Char, r = r.takeWhile isBlank ++ trimStart r := fun r =>
    List.takeWhile_append_dropWhile.symm
  rw [hsplit rest, hsplit rest', htrim, ← List.cons_append, ← List.cons_append, ← List.append_assoc,
    ← List.append_assoc] at hfront
  obtain ⟨-, hgap⟩ := append_mark_inj_right (hblanks rest') (hblanks rest)
    (List.append_cancel_right hfront)
  rw [hsplit rest, hsplit rest', htrim, hgap]

namespace State

theorem gatherEnum_of_plain {e : FullEnum} {cs text rest : List Char} {ls : List SourceLine}
    (h : e.Spans cs text ls rest) (hp : e.Plain) (later : List SourceLine) :
    gatherEnum 0 text (ls ++ later) = ⟨.body e.value, rest, ls.length, later⟩ := by
  have hread := FullEnum.enumDecl?_of_plain hp h.trimmed h.spread rest
  rw [← h.whole] at hread
  have hg := gatherEnum_joined (n := 0) later (fun i hi => h.refuses_beginning hp hi) hread
  rwa [Nat.zero_add] at hg

theorem gatherEnum_of_readEnum {s : State} {line : SourceLine} {d : EnumDecl} {rest : List Char}
    {later : List SourceLine} {n : Nat}
    (h : s.readEnum line = (({ s with pending := requeue line.number rest later }).countMerges
      n).report (.enum d) none) :
    (gatherEnum 0 line.text s.pending).found = .body d ∧
      (gatherEnum 0 line.text s.pending).merges = n ∧
      requeue line.number (gatherEnum 0 line.text s.pending).rest
        (gatherEnum 0 line.text s.pending).pending = requeue line.number rest later := by
  rw [readEnum] at h
  generalize gatherEnum 0 line.text s.pending = g at h
  obtain ⟨found, r, merges, pending⟩ := g
  cases found with
  | body d' =>
    have hentries := congrArg (·.1) h
    have hpending := congrArg (·.2.pending) h
    have hmerges := congrArg (·.2.tally.merges) h
    simp only [report, callback, List.cons.injEq, and_true, Entry.callback.injEq, Callback.mk.injEq,
      Event.enum.injEq] at hentries
    exact ⟨congrArg EnumEnd.body hentries.1, Nat.add_left_cancel hmerges, hpending⟩
  | bodiless =>
    have hentries := congrArg (·.1) h
    simp [report, callback] at hentries
  | outOfLines =>
    have hentries := congrArg (·.1) h
    simp [report, callback] at hentries

/-- An enum with values is reported with its name and all its members, and read up to its semicolon,
exactly when no comma and no brace stands in a value and the type is made of words and colons. -/
theorem readEnum_iff_plain {e : FullEnum} {cs rest : List Char} {s : State} {line : SourceLine}
    {ls later : List SourceLine} (h : e.Spans cs line.text ls rest)
    (hpending : s.pending = ls ++ later) :
    s.readEnum line = (({ s with pending := requeue line.number rest later }).countMerges
      ls.length).report (.enum e.value) none ↔ e.Plain := by
  constructor
  · intro hread
    obtain ⟨hfound, hmerges, hrequeue⟩ := gatherEnum_of_readEnum hread
    obtain ⟨k, hk, hd⟩ := enumDecl?_of_gatherEnum hfound
    obtain ⟨j, hj, -, hlater, -⟩ := suffix_gatherEnum 0 line.text s.pending
    obtain rfl : k = ls.length := by omega
    obtain rfl : j = ls.length := by omega
    rw [hlater, hpending, List.drop_left] at hrequeue
    rw [hpending, List.take_left, h.whole] at hd
    obtain ⟨front, hcs⟩ := h.semicolon
    have hsuffix := semicolon_of_enumDecl? hd
    rw [hcs, List.append_assoc, List.singleton_append] at hsuffix
    have hrest := rest_eq_of_suffix hsuffix (requeue_inj hrequeue)
    obtain ⟨_, _, _, hl, hm⟩ := layout_of_enumDecl? hd
    rw [hrest] at hl
    exact FullEnum.plain_of_layout h.spread hl hm
  · intro hp
    have hg := gatherEnum_of_plain h hp later
    rw [← hpending] at hg
    rw [readEnum, hg]

/-- An enum with values in brackets and in a literal. -/
def maskEnum : FullEnum :=
  ⟨some .isClass, some ⟨"Mask", by decide⟩,
    some ⟨[.word "std", .mark "::", .word "uint8_t"], by decide, by decide, by decide⟩,
    [⟨⟨"None", by decide⟩, none⟩,
      ⟨⟨"All", by decide⟩, some ⟨[.mark "(", .word "1", .mark "<", .mark "<", .word "4", .mark ")",
        .mark "-", .word "1"], by decide, by decide, by decide⟩⟩,
      ⟨⟨"Tag", by decide⟩, some ⟨[⟨.literal, "';'"⟩], by decide, by decide, by decide⟩⟩],
    true⟩

def maskText : List Char :=
  ("enum class Mask: std::uint8_t " ++
    "\x7b None, All = (1 << 4) - 1, Tag = ';', \x7d;").toList

/-- The lines of the text behind the first one, with a declaration behind the semicolon. -/
def maskLines : List SourceLine :=
  [⟨3, "\x7b None, All = (1 << 4) -".toList⟩, ⟨4, "1, Tag = ';',".toList⟩,
    ⟨5, "\x7d; int used;".toList⟩]

theorem spans_mask : maskEnum.Spans maskText "enum class Mask: std::uint8_t".toList maskLines
    " int used;".toList where
  tokens := by decide +kernel
  trimmed := by decide +kernel
  whole := by decide +kernel
  needed := by decide +kernel

/-- An enum with a comma in a literal. -/
def commaEnum : FullEnum :=
  ⟨none, some ⟨"Sep", by decide⟩, none,
    [⟨⟨"Comma", by decide⟩, some ⟨[⟨.literal, "','"⟩], by decide, by decide, by decide⟩⟩,
      ⟨⟨"Dot", by decide⟩, some ⟨[⟨.literal, "'.'"⟩], by decide, by decide, by decide⟩⟩],
    false⟩

def commaText : List Char :=
  "enum Sep \x7b Comma = ',', Dot = '.' \x7d;".toList

theorem spans_comma : commaEnum.Spans commaText commaText [] [] where
  tokens := by decide +kernel
  trimmed := by decide +kernel
  whole := rfl
  needed := fun _ hi => absurd hi (Nat.not_lt_zero _)

/-- The state when the line of an enum has been taken. -/
def beforeEnum (pending : List SourceLine) : State :=
  ⟨pending, [.nameSpace "store" true], none, ⟨1, 1, 0, 0⟩⟩

/-- The first enum is reported with its three members, and the declaration behind it is left; the
second one is not reported. -/
theorem readEnum_mask_comma :
    (beforeEnum maskLines).readEnum ⟨2, "enum class Mask: std::uint8_t".toList⟩ =
      (({ beforeEnum maskLines with pending := [⟨2, "int used;".toList⟩] }).countMerges 3).report
        (.enum ⟨some "Mask", ["None", "All", "Tag"]⟩) none ∧
    (beforeEnum []).readEnum ⟨2, commaText⟩ ≠
      ((beforeEnum []).countMerges 0).report (.enum ⟨some "Sep", ["Comma", "Dot"]⟩) none := by
  have hmask := @readEnum_iff_plain maskEnum maskText _ (beforeEnum maskLines) ⟨2, _⟩ maskLines []
    spans_mask (List.append_nil maskLines).symm
  have hcomma := @readEnum_iff_plain commaEnum commaText _ (beforeEnum []) ⟨2, commaText⟩ [] []
    spans_comma rfl
  refine ⟨hmask.mpr ⟨by decide +kernel, by decide +kernel⟩, fun hread => ?_⟩
  have hplain : commaEnum.Plain := hcomma.mp hread
  exact hplain.values _ List.mem_cons_self ⟨.literal, "','"⟩ (by decide) ',' (by decide) (by decide)

end State
end HeaderOutline
