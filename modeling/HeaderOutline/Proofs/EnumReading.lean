import HeaderOutline.Declaration.EnumBody
import HeaderOutline.Proofs.Layout
import HeaderOutline.Proofs.Matches
import HeaderOutline.Proofs.Pieces
/-!
# Enums are read back

An enum that is written with blanks between its lexemes is read, and no proper part of it that
stands before its semicolon is, nor is such a part taken for a statement. So the lines of an enum
are joined until its semicolon is there, however it is parted into lines.

Results:
* `enumDecl?_joined`: a whole enum.
* `gatherEnum_part`: a part without a semicolon.
* `leads_enum`: the reading of an enum that is laid out.
-/
namespace HeaderOutline
open Text Declaration

/-! ## Items -/

theorem split_append {mark : Char} {w : List Char} (h : mark ∉ w) (cs : List Char) :
    split mark (w ++ mark :: cs) = w :: split mark cs := by
  induction w with
  | nil => rw [List.nil_append, split, if_pos rfl]
  | cons c w ih =>
    rw [List.mem_cons, not_or] at h
    rw [List.cons_append, split, if_neg (Ne.symm h.1), ih h.2]

theorem split_of_notMem {mark : Char} {w : List Char} (h : mark ∉ w) : split mark w = [w] := by
  induction w with
  | nil => rfl
  | cons c w ih =>
    rw [List.mem_cons, not_or] at h
    rw [split, if_neg (Ne.symm h.1), ih h.2]

def memberText (n : FreeName) : List Char :=
  ' ' :: (n.text.toList ++ [' '])

theorem notMem_memberText {c : Char} (hc : isNameChar c = false) (hs : c ≠ ' ') (n : FreeName) :
    c ∉ memberText n := by
  simp only [memberText, List.mem_cons, List.mem_append, List.not_mem_nil, or_false, not_or]
  exact ⟨hs, fun h => ne_of_isNameChar (n.spec.2.1 c h) hc rfl, hs⟩

def bodyText (ns : List FreeName) : List Char :=
  spaced (commas (ns.map ([·.lexeme]))) ++ [' ']

theorem bodyText_cons (n : FreeName) (ns : List FreeName) :
    bodyText (n :: ns) = memberText n ++ if ns.isEmpty then [] else ',' :: bodyText ns := by
  rw [bodyText, List.map_cons, commas_cons]
  cases ns with
  | nil => simp [spaced, memberText, WordOf.lexeme, Lexeme.word, Lexeme.chars]
  | cons m ns =>
    simp [bodyText, spaced, memberText, WordOf.lexeme, Lexeme.word, Lexeme.mark, Lexeme.chars]

theorem split_bodyText (n : FreeName) (ns : List FreeName) :
    split ',' (bodyText (n :: ns)) = (n :: ns).map memberText := by
  have hc := notMem_memberText (c := ',') (by decide) (by decide)
  induction ns generalizing n with
  | nil =>
    rw [bodyText_cons, List.isEmpty_nil, if_pos rfl, List.append_nil, split_of_notMem (hc n)]
    rfl
  | cons m ns ih =>
    rw [bodyText_cons, List.isEmpty_cons, if_neg Bool.false_ne_true, split_append (hc n), ih m]
    rfl

theorem memberName?_memberText (n : FreeName) :
    (trim (memberText n)).isEmpty = false ∧ memberName? (trim (memberText n)) = some n.text := by
  have htrim : trim (memberText n) = n.text.toList := by
    have h := (calm_name n).1.solid.trim_append [' ']
    rw [memberText, trim_blank (by decide)]
    exact h.trans (List.append_nil _)
  have hn := name?_append n.spec.1 n.spec.2.1 parted_nil
  rw [List.append_nil] at hn
  rw [htrim]
  refine ⟨by simpa using n.ne_nil, ?_⟩
  simp [memberName?, hn, trimStart]

theorem memberNames?_bodyText (ns : List FreeName) :
    memberNames? (split ',' (bodyText ns)) = some (ns.map (·.text)) := by
  cases ns with
  | nil => rfl
  | cons n ns =>
    rw [split_bodyText]
    induction ns generalizing n with
    | nil => simp [memberNames?, memberName?_memberText n]
    | cons m ns ih => simpa [memberNames?, memberName?_memberText n] using ih m

/-! ## Whole enums -/

variable {text : List Char}

def fromBrace (ns : List FreeName) (text : List Char) : List Char :=
  '\x7b' :: (bodyText ns ++ '\x7d' :: ' ' :: ';' :: text)

theorem spaced_fromBrace (ns : List FreeName) (text : List Char) :
    spaced (.mark "\x7b" :: (commas (ns.map ([·.lexeme])) ++ [.mark "\x7d", .mark ";"])) ++ text =
      ' ' :: fromBrace ns text := by
  simp [spaced, fromBrace, bodyText, Lexeme.mark, Lexeme.chars]

theorem trimStart_spaced {l : Lexeme} (hl : l.Firm) (ls : List Lexeme) (text : List Char) :
    trimStart (spaced (l :: ls) ++ text) = joined (l :: ls) ++ text := by
  obtain ⟨c, r, hc, hb⟩ := hl.solid.head
  have h : spaced (l :: ls) ++ text = ' ' :: (l.chars ++ (spaced ls ++ text)) := by simp [spaced]
  rw [h, trimStart_blank (by decide), joined_cons, hc, List.cons_append, trimStart_cons hb]

/-- The name of an enum, if it has one, and its brace behind blanks. -/
theorem enumName_spaced (name : Option FreeName) (ns : List FreeName) (text : List Char) :
    ∃ rest, enumName (trimStart (spaced (name.toList.map (·.lexeme)) ++ ' ' :: fromBrace ns text)) =
      (name.map (·.text), rest) ∧ trimStart rest = fromBrace ns text := by
  have hbrace : trimStart (' ' :: fromBrace ns text) = fromBrace ns text := by
    rw [trimStart_blank (by decide)]
    exact trimStart_cons (by decide) _
  cases name with
  | some n =>
    refine ⟨' ' :: fromBrace ns text, ?_, hbrace⟩
    have hn := name?_append n.spec.1 n.spec.2.1 (parted_cons (fromBrace ns text))
    have ht := trimStart_spaced (calm_name n).1 [] (' ' :: fromBrace ns text)
    simp only [Option.toList_some, List.map_cons, List.map_nil, ht, joined_cons]
    simp only [enumName, Lexeme.chars, WordOf.lexeme, Lexeme.word, spaced, List.flatMap_nil,
      List.nil_append, hn, String.ofList_toList, Option.map_some]
  | none =>
    refine ⟨fromBrace ns text, ?_, trimStart_cons (by decide) _⟩
    show enumName (trimStart (' ' :: fromBrace ns text)) = _
    rw [hbrace]
    rfl

/-- The word `class` or `struct` of an enum is passed over. -/
theorem skipScopeWord_spaced (key : Option ClassKey) (name : Option FreeName)
    (ns : List FreeName) (text : List Char) :
    skipScopeWord (trimStart (spaced (key.toList.map (.word ·.keyword)) ++
        (spaced (name.toList.map (·.lexeme)) ++ ' ' :: fromBrace ns text))) =
      trimStart (spaced (name.toList.map (·.lexeme)) ++ ' ' :: fromBrace ns text) := by
  generalize hcs : spaced (name.toList.map (·.lexeme)) ++ ' ' :: fromBrace ns text = cs
  have hp : Parted cs := by rw [← hcs]; exact parted_spaced _ (parted_cons _)
  cases key with
  | some key =>
    have hfirm : (Lexeme.word key.keyword).Firm := by cases key <;> decide
    have ht := trimStart_spaced hfirm [] cs
    simp only [Option.toList_some, List.map_cons, List.map_nil, ht, joined_cons]
    show skipScopeWord (key.keyword.toList ++ cs) = _
    cases key with
    | isClass =>
      have hc : afterWord? "class" ("class".toList ++ cs) = some cs := afterWord?_append _ hp
      simp only [skipScopeWord, ClassKey.keyword, hc, Option.some_or]
    | isStruct =>
      have hc : afterWord? "class" ("struct".toList ++ cs) = none := rfl
      have hs : afterWord? "struct" ("struct".toList ++ cs) = some cs := afterWord?_append _ hp
      simp only [skipScopeWord, ClassKey.keyword, hc, hs, Option.none_or]
  | none =>
    have hnone : ∀ word ∈ ["class", "struct"], afterWord? word (trimStart cs) = none := by
      intro word hword
      rw [← hcs]
      cases name with
      | some n =>
        have hne : n.text ≠ word := by
          have hall : ∀ w ∈ ["class", "struct"], isFreeName w = false := by decide
          exact n.ne (hall word hword)
        have hchars : ∀ w ∈ ["class", "struct"], ∀ c ∈ w.toList, isNameChar c = true := by decide
        have ht := trimStart_spaced (calm_name n).1 [] (' ' :: fromBrace ns text)
        simp only [Option.toList_some, List.map_cons, List.map_nil, ht, joined_cons]
        exact Rule.afterWord?_other_word (hchars word hword) n.spec.2.1 (parted_cons _)
          fun h => hne (String.ofList_toList.symm.trans h)
      | none =>
        simp only [List.mem_cons, List.not_mem_nil, or_false] at hword
        rcases hword with rfl | rfl <;> rfl
    show skipScopeWord (trimStart cs) = trimStart cs
    simp only [skipScopeWord, hnone "class" (by simp), hnone "struct" (by simp), Option.or_none]

theorem takeWhile_bodyText (ns : List FreeName) (text : List Char) :
    (bodyText ns ++ '\x7d' :: text).takeWhile (fun c => !isBrace c) = bodyText ns ∧
      (bodyText ns ++ '\x7d' :: text).dropWhile (fun c => !isBrace c) = '\x7d' :: text := by
  have hlexemes : ∀ l ∈ commas (ns.map fun n => [n.lexeme]), ∀ c ∈ l.chars, isBrace c = false := by
    refine forall_commas (by decide) fun i hi l hl c hc => ?_
    obtain ⟨n, -, rfl⟩ := List.mem_map.mp hi
    rw [List.mem_singleton.mp hl] at hc
    have hn := n.spec.2.1 c hc
    simp [isBrace, ne_of_isNameChar hn (d := '\x7b') (by decide),
      ne_of_isNameChar hn (d := '\x7d') (by decide)]
  have hchars : ∀ c ∈ bodyText ns, (!isBrace c) = true := by
    intro c hc
    rcases List.mem_append.mp hc with hc | hc
    · obtain ⟨l, hl, hc⟩ := List.mem_flatMap.mp hc
      rcases List.mem_cons.mp hc with rfl | hc
      · decide
      · simp [hlexemes l hl c hc]
    · rw [List.mem_singleton.mp hc]
      decide
  rw [List.takeWhile_append_of_pos hchars, List.dropWhile_append_of_pos hchars]
  simp [isBrace]

/-- A written enum is read. -/
theorem enumDecl?_joined (e : EnumSyntax) (text : List Char) :
    enumDecl? (joined e.lexemes ++ text) = some (e.value, text) := by
  obtain ⟨key, name, ns⟩ := e
  have hj : joined (EnumSyntax.lexemes ⟨key, name, ns⟩) ++ text =
      "enum".toList ++ (spaced (key.toList.map (.word ·.keyword)) ++
        (spaced (name.toList.map (·.lexeme)) ++ ' ' :: fromBrace ns text)) := by
    rw [← spaced_fromBrace]
    simp [EnumSyntax.lexemes, joined, spaced_append, Lexeme.chars, Lexeme.word]
  have hparted : Parted (spaced (key.toList.map (.word ·.keyword)) ++
      (spaced (name.toList.map (·.lexeme)) ++ ' ' :: fromBrace ns text)) :=
    parted_spaced _ (parted_spaced _ (parted_cons _))
  obtain ⟨rest, hname, hrest⟩ := enumName_spaced name ns text
  obtain ⟨h1, h2⟩ := takeWhile_bodyText ns (' ' :: ';' :: text)
  rw [hj, enumDecl?, afterWord?_append _ hparted]
  simp only [Option.bind_eq_bind, Option.bind_some, skipScopeWord_spaced, hname, hrest]
  have hu : skipUnderlying? (fromBrace ns text) = some (fromBrace ns text) := rfl
  have hb : afterMark? '\x7b' (fromBrace ns text) =
    some (bodyText ns ++ '\x7d' :: ' ' :: ';' :: text) := rfl
  have hc : ∀ cs, afterMark? '\x7d' ('\x7d' :: cs) = some cs := fun _ => rfl
  have hs : afterMark? ';' (trimStart (' ' :: ';' :: text)) = some text := rfl
  simp only [hu, hb, h1, h2, hc, hs, memberNames?_bodyText, Option.bind_some]
  rfl

/-! ## Parts of an enum -/

theorem semicolon_of_afterSemicolon? {depth : Nat} {ts r : List Token}
    (h : afterSemicolon? depth ts = some r) : ∃ t ∈ ts, t.text = ";" := by
  fun_induction afterSemicolon? depth ts with
  | case1 => cases h
  | case2 _ t ts _ ih | case3 _ t ts _ _ ih | case5 _ t ts _ _ _ ih =>
    obtain ⟨u, hu, hs⟩ := ih h
    exact ⟨u, List.mem_cons_of_mem _ hu, hs⟩
  | case4 _ t ts _ _ hs => exact ⟨t, List.mem_cons_self, hs.1⟩

/-- Without a semicolon the text of an enum goes on with the next line. -/
theorem gatherEnum_part {merges : Nat} {w : List Char} {next : SourceLine} {later : List SourceLine}
    (h : ';' ∉ w) : State.gatherEnum merges w (next :: later) =
      State.gatherEnum (merges + 1) (w ++ ' ' :: next.text) later := by
  have henum : enumDecl? w = none := by
    refine Option.eq_none_iff_forall_ne_some.mpr fun d hd => h ?_
    exact (semicolon_of_enumDecl? hd).subset List.mem_cons_self
  have hstatement : afterStatement? w = none := by
    refine Option.eq_none_iff_forall_ne_some.mpr fun r hr => h ?_
    obtain ⟨ts, hts, -⟩ := Option.map_eq_some_iff.mp hr
    obtain ⟨t, ht, hs⟩ := semicolon_of_afterSemicolon? hts
    exact mem_of_mem_tokens ht (by rw [hs]; exact List.mem_cons_self)
  rw [State.gatherEnum, henum]
  simp only [hstatement]

/-- The lines of an enum are joined until its semicolon is there. `w` is the part on the line so
far, and `ls` are the lexemes that are still to come. -/
theorem gatherEnum_laid {d : EnumDecl} {last : Lexeme} {ls ms : List Lexeme} {w cs : List Char}
    (hls : ∀ l ∈ ls, l.Firm)
    (hdone : ∀ text, enumDecl? (w ++ (spaced ls ++ text)) = some (d, text))
    (hpart : ∀ us vs, ls = us ++ vs → vs ≠ [] → ';' ∉ w ++ spaced us)
    (h : Laid last (ls ++ ms) cs) : ∃ last' ds, Laid last' ms ds ∧
      ∀ merges pending, pending.map (·.text) = textLines (lineRest cs) → ∃ merges' later,
        State.gatherEnum merges (w ++ lineEnd cs) pending =
          ⟨.body d, lineEnd ds, merges', later⟩ ∧
        later.map (·.text) = textLines (lineRest ds) := by
  induction ls generalizing last w cs with
  | nil =>
    refine ⟨last, cs, h, fun merges pending hp => ⟨merges, pending, ?_, hp⟩⟩
    have hd : enumDecl? (w ++ lineEnd cs) = some (d, lineEnd cs) := hdone (lineEnd cs)
    rw [State.gatherEnum.eq_def, hd]
  | cons l ls ih =>
    obtain ⟨sep, ds, rfl, hs, h'⟩ := h.uncons
    obtain ⟨hl, hls⟩ := List.forall_mem_cons.mp hls
    have hw' : ∀ text, (w ++ ' ' :: l.chars) ++ text = w ++ (' ' :: (l.chars ++ text)) :=
      fun text => by simp
    have hdone' : ∀ text, enumDecl? ((w ++ ' ' :: l.chars) ++ (spaced ls ++ text)) =
        some (d, text) := fun text => by
      rw [← hdone text]
      simp [spaced]
    have hpart' : ∀ us vs, ls = us ++ vs → vs ≠ [] → ';' ∉ (w ++ ' ' :: l.chars) ++ spaced us :=
      fun us vs he hne => by
        have := hpart (l :: us) vs (by rw [he]; rfl) hne
        rw [hw']
        simpa [spaced] using this
    obtain ⟨last', xs, hx, hgather⟩ := ih hls hdone' hpart' h'
    refine ⟨last', xs, hx, fun merges pending hp => ?_⟩
    rcases hs with rfl | ⟨rfl, -⟩
    · -- The lexeme stands on the same line.
      have hrest : lineRest (' ' :: (l.chars ++ ds)) = lineRest ds :=
        (lineRest_space _).trans (lineHead_append hl.solid.noBreak ds).2
      rw [Laid.lineEnd_space hl, ← hw']
      exact hgather merges pending (by rw [hp, hrest])
    · -- It begins a line of its own.
      have hrest : lineRest ('\n' :: (l.chars ++ ds)) = '\n' :: (l.chars ++ ds) := rfl
      rw [hrest, textLines_newline, textLines_solid hl.solid] at hp
      obtain ⟨next, later, rfl, hnext, hlater⟩ := List.map_eq_cons_iff.mp hp
      have hend : lineEnd ('\n' :: (l.chars ++ ds)) = [] := rfl
      have hsemi : ';' ∉ w := by simpa [spaced] using hpart [] (l :: ls) rfl (by simp)
      rw [hend, List.append_nil, gatherEnum_part hsemi, hnext, ← hw']
      exact hgather (merges + 1) later hlater

/-! ## The reading of an enum -/

theorem match?_enum {context : Context} {className : Option String}
    (hc : context.holdsDeclarations) (hp : Parted text) :
    Rule.match? context className ("enum".toList ++ text) =
      some (.enumHead, .enumHead, "enum".toList ++ text) := by
  have hread : Rule.recognize? className ("enum".toList ++ text) .enumHead =
      some (.enumHead, "enum".toList ++ text) := by
    rw [Rule.recognize?, startsEnum, afterWord?_append _ hp]
    rfl
  have hplain : AllPlain [.word "enum"] := allPlain_cons.mpr ⟨by decide, allPlain_nil⟩
  refine Rule.match?_of_recognize? ?_ hread fun r hr _ => ?_
  · rcases hc with rfl | rfl <;> rfl
  have hlist : ∀ r ∈ Rule.all.takeWhile (· ≠ .enumHead), r = .classHead ∨
      r ∈ Rule.textRules ∧ "enum" ∉ r.leadingWords := by decide
  have hj : "enum".toList ++ text = joined [.word "enum"] ++ text := rfl
  rw [hj]
  rcases hlist r hr with rfl | ⟨h1, h2⟩
  · refine readText_none hplain hp fun ts h => classHead?_eq_none fun t ht => ?_
    rw [h.head t ht]
    decide
  · exact refuses_joined h1 (by decide) h2 hp

theorem firm_enum (e : EnumSyntax) : ∀ l ∈ e.lexemes, l.Firm := by
  have h1 := calm_enumHead e
  have h2 := calm_enumMembers e
  have hbrace : (Lexeme.mark "\x7b").Firm ∧ (Lexeme.mark "\x7d").Firm ∧ (Lexeme.mark ";").Firm := by
    decide
  intro l hl
  simp only [EnumSyntax.lexemes, List.mem_cons, List.mem_append, List.not_mem_nil, or_false] at hl
  rcases hl with hl | hl | hl | hl | hl | hl
  · exact (h1 l (by simp [hl])).1
  · exact (h1 l (by simp only [List.mem_cons, List.mem_append]; exact .inr hl)).1
  · rw [hl]; exact hbrace.1
  · exact (h2 l hl).1
  · rw [hl]; exact hbrace.2.1
  · rw [hl]; exact hbrace.2.2

/-- Every part of an enum but the whole lacks the semicolon. -/
theorem notMem_part {e : EnumSyntax} {us vs : List Lexeme} (h : e.lexemes = us ++ vs)
    (hne : vs ≠ []) : ';' ∉ spaced us := by
  obtain ⟨init, hinit, hsemi⟩ : ∃ init, e.lexemes = init ++ [.mark ";"] ∧
      ∀ l ∈ init, ';' ∉ l.chars := by
    refine ⟨.word "enum" :: (e.key.toList.map (.word ·.keyword) ++ e.name.toList.map (·.lexeme) ++
      .mark "\x7b" :: (commas (e.members.map ([·.lexeme])) ++ [.mark "\x7d"])),
      by simp [EnumSyntax.lexemes], fun l hl => ?_⟩
    have h1 := calm_enumHead e
    have h2 := calm_enumMembers e
    simp only [List.mem_cons, List.mem_append, List.not_mem_nil, or_false] at hl
    rcases hl with hl | hl | hl | hl | hl
    · exact (h1 l (by simp [hl])).notMem_semicolon
    · exact (h1 l (by simp only [List.mem_cons, List.mem_append]; exact .inr hl)).notMem_semicolon
    · rw [hl]; decide
    · exact (h2 l hl).notMem_semicolon
    · rw [hl]; decide
  have hus : us <+: init := by
    have hpre : us <+: init ++ [.mark ";"] := ⟨vs, by rw [← h, hinit]⟩
    rcases List.prefix_concat_iff.mp hpre with he | he
    · rw [hinit, he] at h
      exact absurd (List.self_eq_append_right.mp h) hne
    · exact he
  intro hm
  obtain ⟨l, hl, hm⟩ := List.mem_flatMap.mp hm
  rcases List.mem_cons.mp hm with hm | hm
  · revert hm; decide
  · exact hsemi l (hus.subset hl) hm

theorem act_enumHead {s : State} {line : SourceLine} {d : EnumDecl} {cs rest : List Char}
    {merges : Nat} {later : List SourceLine}
    (h : State.gatherEnum 0 line.text s.pending = ⟨.body d, rest, merges, later⟩) :
    s.act line cs .enumHead = ([s.callback (.enum d)],
      .ok (({ s with pending := requeue line.number rest later } : State).countMerges
        merges).countConstruct) := by
  simp only [State.act, State.readEnum, h]
  rfl

/-- An enum that is laid out is read and reported. -/
theorem leads_enum {fs : ScopeStack} {e : EnumSyntax} {last : Lexeme} {ms : List Lexeme}
    {cs : List Char} (hc : fs.context.holdsDeclarations) (h : Laid last (e.lexemes ++ ms) cs) :
    ∃ last' ds, Laid last' ms ds ∧ Leads fs cs [(.enum e.value, fs)] fs ds := by
  obtain ⟨ls, he⟩ : ∃ ls, e.lexemes = .word "enum" :: ls := ⟨_, rfl⟩
  have hfirm := firm_enum e
  have hdone : ∀ text, enumDecl? ("enum".toList ++ (spaced ls ++ text)) = some (e.value, text) :=
    fun text => by rw [← enumDecl?_joined e text, he, joined_cons]; rfl
  have hpart : ∀ us vs, ls = us ++ vs → vs ≠ [] → ';' ∉ "enum".toList ++ spaced us :=
    fun us vs hls hne hm => by
      have he' : e.lexemes = (.word "enum" :: us) ++ vs := by rw [he, hls]; rfl
      exact notMem_part he' hne (List.mem_cons_of_mem _ hm)
  rw [he] at h hfirm
  obtain ⟨hl, hls⟩ := List.forall_mem_cons.mp hfirm
  obtain ⟨sep, cs, rfl, hs, h'⟩ := h.uncons
  obtain ⟨last', ds, hds, hgather⟩ := gatherEnum_laid hls hdone hpart h'
  refine ⟨last', ds, hds, Leads.blank (Laid.isBlank_sep hs) ?_⟩
  refine leads_of_act hl.solid (match?_enum hc h'.parted_lineEnd) fun s line hsc htext hp => ?_
  obtain ⟨merges, later, hg, hlater⟩ := hgather 0 s.pending hp
  have hg : State.gatherEnum 0 line.text s.pending =
    ⟨.body e.value, lineEnd ds, merges, later⟩ := by rw [htext]; exact hg
  refine ⟨_, _, act_enumHead hg, ?_, hsc, texts_requeue line.number hlater, rfl⟩
  rw [← hsc]
  rfl

end HeaderOutline
