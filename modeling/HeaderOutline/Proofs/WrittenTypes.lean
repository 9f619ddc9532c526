import HeaderOutline.Proofs.DeclarationKinds
import HeaderOutline.Proofs.TypeCoverage
import HeaderOutline.Proofs.WrittenText
/-!
# Written types are read back

Whatever is read as a type is written as lexemes that are read as that type again. What a type
looks like is left open: its lexemes are found part by part while it is read, each part with a
proof that it is read back.

A type takes as much as it can, so reading stops at the same place only when what stands behind the
written type does not go on with it. Where a name follows, this cannot be told from the name alone,
which may be rooted or a word of a built-in type: it follows from the reading having stopped before
that name the first time (`EndsAlike`).

Results:
* `exists_nameReads`: a name.
* `exists_typeReads`: a type.
-/
namespace HeaderOutline
open Text Declaration

variable {ts us r rest : List Token}

/-! ## Words of a text -/

/-- The tokens are as those of a text: no token is empty, and words are made of name characters. -/
structure Worded (ts : List Token) : Prop where
  lexical : Lexical ts
  ne_nil : ∀ t ∈ ts, t.text.toList ≠ []

theorem worded_tokens (cs : List Char) : Worded (Token.tokens cs) where
  lexical := lexical_tokens cs
  ne_nil := by
    fun_induction Token.tokens cs with
    | case1 => exact fun t ht => absurd ht List.not_mem_nil
    | case2 cs u rest hn ih =>
      exact List.forall_mem_cons.mpr ⟨Token.text_ne_nil_of_next? hn, ih⟩

theorem Worded.of_suffix (h : Worded ts) (hs : us <:+ ts) : Worded us where
  lexical := h.lexical.of_suffix hs
  ne_nil t ht := h.ne_nil t (hs.subset ht)

theorem bare_of_isName {t : Token} (h : t.isName = true) : t.bare = .word t.text := by
  simp only [Token.isName, Bool.and_eq_true, beq_iff_eq] at h
  rw [Token.bare, h.1]
  rfl

theorem Worded.isPlain {t : Token} (h : Worded (t :: ts)) (hk : t.kind = .word) :
    (Lexeme.word t.text).isPlain = true := by
  have hne := h.ne_nil t List.mem_cons_self
  have hall := h.lexical t List.mem_cons_self hk
  simpa [Lexeme.isPlain, Lexeme.word, Lexeme.chars, hne] using hall

theorem Worded.complete {t : Token} (h : Worded (t :: ts)) (hn : t.isName = true) :
    Complete t.text.toList [t.bare] := by
  rw [bare_of_isName hn]
  simp only [Token.isName, Bool.and_eq_true, beq_iff_eq] at hn
  exact complete_word (h.isPlain hn.1)

/-! ## Where reading stops -/

/-- What stands in `us` goes on with a name or with a built-in type only where `ts` does. -/
structure StopsAlike (ts us : List Token) : Prop where
  native : ∀ u ∈ us.head?, isNative u.text = true → ∃ t ∈ ts.head?, isNative t.text = true
  part : ∀ c n vs, us = c :: n :: vs → c.text = "::" → n.isName = true →
    ∃ d m ws, ts = d :: m :: ws ∧ d.text = "::" ∧ m.isName = true

/-- What stands in `us` goes on with a type only where `ts` does. -/
structure EndsAlike (ts us : List Token) : Prop extends StopsAlike ts us where
  mark : ∀ u ∈ us.head?, u.text ∉ ["<", "*", "&"]

theorem stopsAlike_of_head (h : ∀ u ∈ us.head?, u.text ≠ "::" ∧ isNative u.text = false) :
    StopsAlike ts us where
  native u hu hn := by
    rw [(h u hu).2] at hn
    cases hn
  part c n vs heq hc _ := by
    subst heq
    exact absurd hc (h c rfl).1

theorem EndsType.endsAlike (h : EndsType us) (ts : List Token) : EndsAlike ts us where
  toStopsAlike := stopsAlike_of_head fun u hu =>
    ⟨fun he => (h u hu).1 (by rw [he]; decide), (h u hu).2⟩
  mark := h.noMark

/-- The lexemes are read as the value wherever the reading may stop. -/
def Rereads {α : Type} (p : Reader α) (stop : List Token → Prop) (a : α) (ls : List Lexeme) :
    Prop :=
  ∀ ⦃us r⦄, stop r → Spells r ls us → p us = some (a, r)

/-! ## Names -/

/-- A name in front of the tokens, and one in front of others. -/
theorem endsAlike_of_name {t : Token} {ls : List Lexeme} (hw : Worded (t :: ts))
    (hn : t.isName = true) (hu : Spells r (t.bare :: ls) us) : EndsAlike (t :: ts) us := by
  have hne : ∀ text, text.toList.all isNameChar = false → t.text ≠ text :=
    hw.lexical.ne_of_isName hn
  obtain ⟨u, us, rfl, -, htext, -⟩ := hu.uncons
  have htext : u.text = t.text := htext
  refine ⟨⟨fun v hv hnat => ⟨t, rfl, ?_⟩, fun c m vs heq hc _ => ?_⟩, fun v hv => ?_⟩
  · cases hv
    rwa [htext] at hnat
  · cases heq
    exact absurd (htext.symm.trans hc) (hne "::" (by decide))
  · cases hv
    rw [htext]
    simp [hne "<" (by decide), hne "*" (by decide), hne "&" (by decide)]

theorem laterParts_alike (hw : Worded ts) : ∃ ls,
    (∀ w ms, Complete w ms → Complete (w ++ (laterParts ts).1.toList) (ms ++ ls)) ∧
      ∀ us r, StopsAlike (laterParts ts).2 r → Spells r ls us →
        laterParts us = ((laterParts ts).1, r) := by
  -- Where nothing was taken, nothing is taken from what stops alike.
  have hstop : ∀ ts us : List Token, StopsAlike ts us →
      (∀ c n vs, ts = c :: n :: vs → ¬(c.text = "::" ∧ n.isName = true)) →
      laterParts us = ("", us) := by
    intro ts us h hts
    unfold laterParts
    split
    · next c n vs =>
      rw [if_neg]
      rintro ⟨hc, hn⟩
      obtain ⟨d, m, ws, rfl, hd, hm⟩ := h.part c n vs rfl hc hn
      exact hts d m ws rfl ⟨hd, hm⟩
    · rfl
  fun_induction laterParts ts with
  | case1 c n ts hcn parts rest heq ih =>
    rw [heq] at ih
    have hn : Worded (n :: ts) := hw.of_suffix (List.suffix_cons c _)
    obtain ⟨ls, hwritten, hread⟩ := ih (hn.of_suffix (List.suffix_cons n ts))
    refine ⟨.mark "::" :: n.bare :: ls, fun w ms h => ?_, fun us r hr hu => ?_⟩
    · have hroot := h.append (.single (l := .mark "::") (by decide))
        (apart_of_head w (by decide))
      have hname := hroot.append_complete (hn.complete hcn.2)
        (apart_of_last (by simp [Lexeme.chars, Lexeme.mark]; decide) _)
      simpa [Lexeme.chars, Lexeme.mark] using hwritten _ _ hname
    · obtain ⟨c', vs, rfl, -, hc', hv⟩ := hu.uncons
      obtain ⟨n', xs, rfl, hk, hn', hx⟩ := hv.uncons
      have hcond : c'.text = "::" ∧ n'.isName = true :=
        ⟨hc', (isName_congr hk hn').trans hcn.2⟩
      rw [laterParts, if_pos hcond, hread xs r hr hx, show n'.text = n.text from hn']
  | case2 c n ts hcn =>
    refine ⟨[], fun w ms h => by simpa using h, fun us r hr hu => ?_⟩
    rw [hu.eq_of_nil]
    exact hstop _ _ hr fun _ _ _ heq => by cases heq; exact hcn
  | case3 ts hts =>
    refine ⟨[], fun w ms h => by simpa using h, fun us r hr hu => ?_⟩
    rw [hu.eq_of_nil]
    exact hstop _ _ hr fun c n vs heq => absurd heq (hts c n vs)

theorem freeName?_alike {n : Token} {ls : List Lexeme} (hn : n.isName = true)
    (hres : isReserved n.text = false) (h : Spells r (n.bare :: ls) us) :
    ∃ vs, Spells r ls vs ∧ freeName? us = some (n.text, vs) := by
  obtain ⟨u, vs, rfl, hk, ht, hv⟩ := h.uncons
  have hu : u.isName = true := (isName_congr hk ht).trans hn
  have ht : u.text = n.text := ht
  exact ⟨vs, hv, by simp [freeName?, Declaration.name?, hu, ht, hres]⟩

/-- What is known of the lexemes of a name that was read in front of `ts`. -/
structure NameReads (ts rest : List Token) (name : String) (ls : List Lexeme) : Prop where
  complete : Complete name.toList ls
  head : (∀ t ∈ ts.head?, isNative t.text = false) →
    ∃ l ms, ls = l :: ms ∧ BeginsType l ∧ l.text ≠ "const"
  ends : ∀ us r, Spells r ls us → EndsAlike ts us
  read : Rereads qualifiedName? (StopsAlike rest) name ls

theorem exists_nameReads (hw : Worded ts) {name : String}
    (h : qualifiedName? ts = some (name, rest)) : ∃ ls, NameReads ts rest name ls := by
  obtain ⟨⟨first, behind⟩, hf, heq⟩ := Option.map_eq_some_iff.mp h
  cases heq
  obtain ⟨n, hskip, rfl, hname, hres⟩ := freeName?_eq_some hf
  have hsuf : n :: behind <:+ ts := hskip ▸ suffix_skipOptional "::" ts
  have hn := hw.of_suffix hsuf
  obtain ⟨ls, hwritten, hread⟩ := laterParts_alike (hn.of_suffix (List.suffix_cons n behind))
  cases hroot : skip? "::" ts with
  | none =>
    rw [skipOptional, hroot, Option.getD_none] at hskip
    subst hskip
    refine ⟨n.bare :: ls, ?_, fun hb => ?_, fun us r hu => endsAlike_of_name hw hname hu,
      fun us r hr hu => ?_⟩
    · simpa [startsWith, hroot] using hwritten _ _ (hn.complete hname)
    · have hplain := (hn.complete hname).plain n.bare List.mem_cons_self
      have hfree := isFreeName_of_isName hplain hname hres (hb n rfl)
      refine ⟨n.bare, ls, rfl, ?_, ?_⟩
      · rw [bare_of_isName hname]
        exact .name ⟨n.text, hfree⟩
      · exact WordOf.ne (⟨n.text, hfree⟩ : FreeName) (by decide)
    · obtain ⟨vs, hv, hfree⟩ := freeName?_alike hname hres hu
      have hne : skip? "::" us = none :=
        hu.skip?_ne (hn.lexical.ne_of_isName hname "::" (by decide))
      simp only [qualifiedName?, skipOptional, startsWith, hne, hroot, Option.getD_none, hfree,
        Option.map_some, hread vs r hr hv]
  | some us =>
    rw [skipOptional, hroot, Option.getD_some] at hskip
    subst hskip
    obtain ⟨c, rfl, hc⟩ := skip?_eq_some.mp hroot
    refine ⟨.mark "::" :: n.bare :: ls, ?_, fun _ => ⟨_, _, rfl, .root, by decide⟩,
      fun us r hu => ?_, fun us r hr hu => ?_⟩
    · have hroot' := Written.single (l := .mark "::") (by decide)
      have hname := hroot'.append_complete (hn.complete hname)
        (apart_of_last (by simp [Lexeme.chars, Lexeme.mark]; decide) _)
      simpa [startsWith, hroot, Lexeme.chars, Lexeme.mark] using hwritten _ _ hname
    · obtain ⟨c', vs, rfl, -, hc', hv⟩ := hu.uncons
      have hc' : c'.text = "::" := hc'
      refine ⟨⟨fun v hv hnat => ?_, fun _ _ _ _ _ _ => ⟨c, n, behind, rfl, hc, hname⟩⟩,
        fun v hv => ?_⟩
      · cases hv
        rw [hc'] at hnat
        exact absurd hnat (by decide)
      · cases hv
        rw [hc']
        decide
    · obtain ⟨vs, hv, hs⟩ := hu.skip?_self
      have hs : skip? "::" us = some vs := hs
      obtain ⟨xs, hx, hfree⟩ := freeName?_alike hname hres hv
      simp only [qualifiedName?, skipOptional, startsWith, hs, hroot, Option.getD_some, hfree,
        Option.map_some, Option.isSome_some, hread xs r hr hx]

/-! ## The front of a type -/

theorem exists_nativeWords (ts : List Token) : ∃ ws : List NativeWord,
    ws.map (·.text) = (ts.takeWhile (isNative ·.text)).map (·.text) := by
  induction ts with
  | nil => exact ⟨[], rfl⟩
  | cons t ts ih =>
    obtain ⟨ws, hws⟩ := ih
    rw [List.takeWhile_cons]
    split
    · next ht => exact ⟨⟨t.text, ht⟩ :: ws, congrArg (t.text :: ·) hws⟩
    · exact ⟨[], rfl⟩

theorem nativeWord_isPlain (w : NativeWord) : w.lexeme.isPlain = true :=
  WordOf.isPlain w (nativeWord_spec w).1.1 (nativeWord_spec w).1.2

def nativeFragment (w : NativeWord) : Fragment :=
  ⟨w.text, [w.lexeme], complete_word (nativeWord_isPlain w)⟩

/-- The texts in front of a type are these fragments, and they are read back. -/
structure FrontReads (p : Reader (List String × Bool)) (rest : List Token)
    (front : List String × Bool) (ps : List Fragment) : Prop where
  texts : front.1 = ps.map (·.text)
  head : ∃ l ms, ps.flatMap (·.lexemes) = l :: ms ∧ BeginsType l
  read : Rereads p (StopsAlike rest) front (ps.flatMap (·.lexemes))

theorem exists_bareReads (hw : Worded ts) {front : List String × Bool}
    (h : bareType? ts = some (front, rest)) : ∃ p ps, FrontReads bareType? rest front (p :: ps) ∧
      ∀ l ∈ p.lexemes.head?, l.text ≠ "const" := by
  unfold bareType? at h
  split at h
  · next hnone =>
    obtain ⟨⟨name, behind⟩, hq, heq⟩ := Option.map_eq_some_iff.mp h
    cases heq
    obtain ⟨ls, hls⟩ := exists_nameReads hw hq
    have hts : ∀ t ∈ ts.head?, isNative t.text = false := fun t ht => by
      obtain ⟨us, rfl⟩ := List.head?_eq_some_iff.mp ht
      rw [List.takeWhile_cons] at hnone
      split at hnone
      · cases hnone
      · next hn => exact Bool.eq_false_iff.mpr hn
    obtain ⟨l, ms, rfl, hl, hconst⟩ := hls.head hts
    refine ⟨⟨name, l :: ms, hls.complete⟩, [], ⟨rfl, ⟨l, ms, by simp, hl⟩, fun us r hr hu => ?_⟩,
      fun m hm => by cases hm; exact hconst⟩
    rw [List.flatMap_singleton] at hu
    have hus : us.takeWhile (isNative ·.text) = [] := by
      obtain ⟨u, vs, rfl, -, -, -⟩ := hu.uncons
      rw [List.takeWhile_cons, if_neg]
      intro hn
      obtain ⟨t, ht, hn⟩ := (hls.ends _ _ hu).native u rfl hn
      rw [hts t ht] at hn
      cases hn
    unfold bareType?
    rw [hus]
    simp only [hls.read hr hu, Option.map_some]
  · next t natives htake =>
    cases h
    obtain ⟨ws, hws⟩ := exists_nativeWords ts
    rw [htake] at hws
    cases ws with
    | nil => cases hws
    | cons w ws =>
      refine ⟨nativeFragment w, ws.map nativeFragment, ⟨?_, ⟨w.lexeme, _, rfl, .native w⟩,
        fun us r hr hu => ?_⟩, fun m hm => by cases hm; exact w.ne (by decide)⟩
      · rw [← hws]
        simp [nativeFragment]
      · have hr : ∀ u ∈ r.head?, isNative u.text = false := fun u hu => by
          refine Bool.eq_false_iff.mpr fun hn => ?_
          obtain ⟨t, ht, hn⟩ := hr.native u hu hn
          have hnot := List.head?_dropWhile_not (fun t : Token => isNative t.text) ts
          rw [Option.mem_def.mp ht] at hnot
          rw [hnot] at hn
          cases hn
        have hbare : ∀ xs : List NativeWord,
            (xs.map nativeFragment).flatMap (·.lexemes) = xs.map (·.lexeme) := fun xs => by
          rw [List.flatMap_map, List.map_eq_flatMap]
          rfl
        have hu : Spells r (BareType.native w ws).lexemes us := by
          have := hbare (w :: ws)
          rw [List.map_cons] at this
          rwa [this] at hu
        rw [bareType?_native hu hr, BareType.texts, ← List.map_cons, hws]

theorem complete_const : Complete "const".toList [.word "const"] :=
  complete_word (by decide)

theorem exists_frontReads (hw : Worded ts) {front : List String × Bool}
    (h : typeFront? ts = some (front, rest)) :
    ∃ p ps, FrontReads typeFront? rest front (p :: ps) := by
  obtain ⟨⟨⟨texts, native⟩, behind⟩, hb, heq⟩ := Option.map_eq_some_iff.mp h
  cases heq
  obtain ⟨p, ps, hbare, hne⟩ := exists_bareReads (hw.of_suffix (suffix_skipOptional "const" ts)) hb
  have hlexemes := p.complete.ne_nil
  have hhead : ∀ us r, Spells r ((p :: ps).flatMap (·.lexemes)) us →
      ∀ t ∈ us.head?, t.text ≠ "const" := fun us r hu t ht => by
    obtain ⟨l, ms, hl⟩ := List.exists_cons_of_ne_nil hlexemes
    rw [List.flatMap_cons, hl] at hu
    rw [hu.head t ht]
    exact hne l (by rw [hl]; rfl)
  cases hc : skip? "const" ts with
  | none =>
    refine ⟨p, ps, ?_, hbare.head, fun us r hr hu => ?_⟩
    · simpa [startsWith, hc] using hbare.texts
    · have := typeFront?_of_bareType? (c := false) .nil (hbare.read hr hu) (hhead us r hu)
      simpa [startsWith, hc, constTexts] using this
  | some _ =>
    refine ⟨⟨"const", _, complete_const⟩, p :: ps, ?_, ⟨_, _, rfl, .const⟩, fun us r hr hu => ?_⟩
    · simpa [startsWith, hc] using hbare.texts
    · rw [List.flatMap_cons] at hu
      obtain ⟨vs, h1, h2⟩ := hu.split
      have := typeFront?_of_bareType? (c := true) h1 (hbare.read hr h2) (hhead vs r h2)
      simpa [startsWith, hc, constTexts] using this

/-! ## The back of a type -/

theorem stars_eq (ts : List Token) :
    ∃ n, (stars ts).1 = List.replicate n "*" ∧ (n = 0 → (stars ts).2 = ts) := by
  fun_induction stars ts with
  | case1 t ts ht marks rest heq ih =>
    obtain ⟨n, hn, -⟩ := ih
    rw [heq] at hn
    exact ⟨n + 1, congrArg ("*" :: ·) hn, fun h => absurd h (Nat.succ_ne_zero n)⟩
  | case2 => exact ⟨0, rfl, fun _ => rfl⟩
  | case3 => exact ⟨0, rfl, fun _ => rfl⟩

theorem ampersands_eq (m : Nat) (ts : List Token) : ∃ n ≤ m,
    (ampersands m ts).1 = List.replicate n "&" ∧ (n = 0 → (ampersands m ts).2 = ts) := by
  fun_induction ampersands m ts with
  | case1 m t ts ht marks rest heq ih =>
    obtain ⟨n, hle, hn, -⟩ := ih
    rw [heq] at hn
    exact ⟨n + 1, by omega, congrArg ("&" :: ·) hn, fun h => absurd h (Nat.succ_ne_zero n)⟩
  | case2 => exact ⟨0, Nat.zero_le _, rfl, fun _ => rfl⟩
  | case3 => exact ⟨0, Nat.zero_le _, rfl, fun _ => rfl⟩

theorem typeMarks_eq (ts : List Token) :
    ∃ m : TypeMarks, (typeMarks ts).1 = m.texts ∧ (m.texts = [] → (typeMarks ts).2 = ts) := by
  obtain ⟨n, hn, h0⟩ := stars_eq ts
  obtain ⟨k, hk, hk', h0'⟩ := ampersands_eq 2 (stars ts).2
  refine ⟨⟨n, ⟨k, by omega⟩⟩, ?_, fun h => ?_⟩
  · rw [TypeMarks.texts, ← hn, ← hk']
    rfl
  · simp only [TypeMarks.texts, List.append_eq_nil_iff, List.replicate_eq_nil_iff] at h
    exact (h0' h.2).trans (h0 h.1)

def TypeMarks.fragments (m : TypeMarks) : List Fragment :=
  List.replicate m.pointers ⟨"*", [.mark "*"], complete_mark (by decide) (by decide)⟩ ++
    List.replicate m.references ⟨"&", [.mark "&"], complete_mark (by decide) (by decide)⟩

theorem TypeMarks.fragments_texts (m : TypeMarks) : m.fragments.map (·.text) = m.texts := by
  simp [fragments, texts]

theorem TypeMarks.fragments_lexemes (m : TypeMarks) :
    m.fragments.flatMap (·.lexemes) = m.lexemes := by
  have hall : ∀ p ∈ m.fragments, p.lexemes = [.mark p.text] := by
    intro p hp
    simp only [fragments, List.mem_append, List.mem_replicate] at hp
    rcases hp with ⟨-, rfl⟩ | ⟨-, rfl⟩ <;> rfl
  rw [lexemes, ← fragments_texts, List.map_map, List.map_eq_flatMap]
  exact List.flatMap_congr hall

/-- Behind a name or a built-in type stand marks, or what ends the type. -/
theorem stopsAlike_typeMarks {m : TypeMarks} {vs : List Token} (hm : m.texts = [] → rest = ts)
    (hr : EndsAlike rest r) (hv : Spells r m.lexemes vs) :
    StopsAlike ts vs ∧ skip? "<" vs = none := by
  rw [TypeMarks.lexemes] at hv
  cases htexts : m.texts with
  | nil =>
    rw [htexts] at hv
    rw [hv.eq_of_nil, ← hm htexts]
    refine ⟨hr.toStopsAlike, ?_⟩
    cases r with
    | nil => rfl
    | cons u r =>
      exact if_neg fun h => hr.mark u rfl (by rw [h]; decide)
  | cons x xs =>
    have hx : x = "*" ∨ x = "&" := by
      have : x ∈ m.texts := by rw [htexts]; exact List.mem_cons_self
      simp only [TypeMarks.texts, List.mem_append, List.mem_replicate] at this
      exact this.imp (·.2) (·.2)
    rw [htexts] at hv
    refine ⟨stopsAlike_of_head fun u hu => ?_, hv.skip?_ne ?_⟩
    · rw [show u.text = x from hv.head u hu]
      rcases hx with rfl | rfl <;> decide
    · rcases hx with rfl | rfl <;> decide

/-! ## Types -/

/-- The lexemes are those of the written type, and they are read as the type. -/
structure TypeReads (stop : List Token → Prop) (e : TypeExpr) (ls : List Lexeme) : Prop where
  complete : Complete (TypeExpr.renderAfter [] e) ls
  head : ∃ l ms, ls = l :: ms ∧ BeginsType l
  read : Rereads type? stop e ls

theorem TypeReads.endsType {e : TypeExpr} {ls : List Lexeme} (h : TypeReads (EndsAlike rest) e ls) :
    TypeReads EndsType e ls where
  complete := h.complete
  head := h.head
  read _ _ hr := h.read (hr.endsAlike rest)

theorem typeReads_marked {words : List String} {native : Bool} {behind : List Token}
    {p : Fragment} {ps : List Fragment} {e : TypeExpr}
    (hf : FrontReads typeFront? behind (words, native) (p :: ps))
    (h : markedType words behind = some (e, rest)) : ∃ ls, TypeReads (EndsAlike rest) e ls := by
  obtain ⟨m, hm, hnil⟩ := typeMarks_eq behind
  cases h
  refine ⟨(p :: ps).flatMap (·.lexemes) ++ m.lexemes, ?_, ?_, fun us r hr hu => ?_⟩
  · have := Written.nil.ofTokens p (ps ++ m.fragments)
    rwa [List.nil_append, ← List.cons_append, List.map_append, List.flatMap_append,
      m.fragments_texts, m.fragments_lexemes, ← hf.texts, ← hm] at this
  · obtain ⟨l, ms, hl, hb⟩ := hf.head
    exact ⟨l, ms ++ m.lexemes, by rw [hl, List.cons_append], hb⟩
  · obtain ⟨vs, h1, h2⟩ := hu.split
    obtain ⟨hstop, hskip⟩ := stopsAlike_typeMarks (fun h0 => hnil h0) hr h2
    have hback : markedType words vs = some (.ofTokens (words ++ (typeMarks behind).1), r) := by
      rw [markedType, typeMarks_spells h2 hr.mark, hm]
      rfl
    rw [type?_eq, hf.read hstop h1, Option.bind_some, afterFront, hback, hskip, ite_self]

/-- The lexemes are those of a written argument, and they are read as the argument. -/
structure ArgumentReads (e : TypeExpr) (ls : List Lexeme) : Prop where
  complete : Complete (TypeExpr.renderAfter [] e) ls
  head : ∃ l ms, ls = l :: ms ∧ l.text ≠ ">"
  read : Rereads argument? EndsType e ls

theorem TypeReads.argument {e : TypeExpr} {ls : List Lexeme} (h : TypeReads EndsType e ls) :
    ArgumentReads e ls := by
  obtain ⟨l, ms, rfl, hl⟩ := h.head
  refine ⟨h.complete, ⟨l, ms, rfl, hl.ne (by decide)⟩, fun us r hr hu => ?_⟩
  obtain ⟨u, us, rfl, -, hu', -⟩ := hu.uncons
  rw [argument?, if_neg (by simp [hl.isNumber hu'])]
  exact h.read hr hu

theorem argumentReads_number {t : Token} (hw : Worded (t :: ts)) (hn : t.isNumber = true) :
    ArgumentReads (.ofTokens [t.text]) [t.bare] := by
  have hk : t.kind = .word := by
    simp only [Token.isNumber, Bool.and_eq_true, beq_iff_eq] at hn
    exact hn.1
  have hbare : t.bare = .word t.text := by rw [Token.bare, hk]; rfl
  have hplain := hw.isPlain hk
  refine ⟨?_, ⟨t.bare, [], rfl, fun h => ?_⟩, fun us r hr hu => ?_⟩
  · rw [hbare]
    exact Written.nil.ofTokens ⟨t.text, _, complete_word hplain⟩ []
  · rw [show t.text = ">" from h] at hplain
    exact absurd hplain (by decide)
  · obtain ⟨u, us, rfl, hk', ht, hv⟩ := hu.uncons
    rw [argument?, if_pos ((isNumber_congr hk' ht).trans hn), hv.eq_of_nil,
      show u.text = t.text from ht]

theorem forall_of_commaList {α : Type} {item : Reader α} (hi : Advances item) {close : String}
    {P : α → Prop} {as : List α}
    (hP : ∀ us a r, us <:+ ts → item us = some (a, r) → P a)
    (h : commaList item close ts = some (as, rest)) : as ≠ [] ∧ ∀ a ∈ as, P a := by
  fun_induction commaList item close ts generalizing as with
  | case1 => cases h
  | case2 ts a behind hitem us hcomma hlt ih =>
    obtain ⟨⟨as', r⟩, h, heq⟩ := Option.map_eq_some_iff.mp h
    cases heq
    have hus := (suffix_of_skip? hcomma).1.trans (hi hitem).1
    have hlater := (ih (fun vs b r hv => hP vs b r (hv.trans hus)) h).2
    exact ⟨by simp, List.forall_mem_cons.mpr ⟨hP ts a behind (List.suffix_refl ts) hitem, hlater⟩⟩
  | case3 => cases h
  | case4 ts a behind hitem =>
    obtain ⟨r, -, heq⟩ := Option.map_eq_some_iff.mp h
    cases heq
    exact ⟨by simp, by simpa using hP ts a behind (List.suffix_refl ts) hitem⟩

theorem forall_of_arguments? {P : TypeExpr → Prop} {args : List TypeExpr}
    (hP : ∀ us a r, us <:+ ts → argument? us = some (a, r) → P a)
    (h : arguments? ts = some (args, rest)) : ∀ a ∈ args, P a := by
  rw [arguments?] at h
  split at h
  · cases h
    exact fun a ha => absurd ha List.not_mem_nil
  · rw [argumentList?_eq] at h
    exact (forall_of_commaList advances_types.2.2.2 hP h).2

theorem arguments?_reads {f : TypeExpr → List Lexeme} {args : List TypeExpr} {ls : List Lexeme}
    (hargs : ∀ a ∈ args, ArgumentReads a (f a))
    (hu : Spells r (commas (args.map f) ++ .mark ">" :: ls) us) :
    ∃ v, Spells r ls v ∧ arguments? us = some (args, v) := by
  refine arguments?_spells hu (fun h => List.map_eq_nil_iff.mp h) (fun i hi => ?_) fun hne => ?_
  · rw [List.head?_map] at hi
    obtain ⟨a, ha, rfl⟩ := Option.map_eq_some_iff.mp hi
    exact (hargs a (List.mem_of_mem_head? ha)).head
  · have hends : ∀ m ∈ [",", ">"], m ∈ endMarks := by decide
    have hlist : ∃ v, Spells r ls v ∧
        commaList argument? ">" us = some (args.map fun a => a, v) :=
      commaList_spells advances_types.2.2.2 (by decide) (by simpa using hne)
        (fun a ha m hm _ _ _ h2 h1 => (hargs a ha).read (endsType_of_mark (hends m hm) h2) h1) hu
    rwa [List.map_id'] at hlist

/-- A type with arguments is read back when each of them is. -/
theorem typeReads_applied {words : List String} {behind closed : List Token}
    {p : Fragment} {ps : List Fragment} {args : List TypeExpr}
    (hf : FrontReads typeFront? behind (words, false) (p :: ps))
    (hargs : ∀ a ∈ args, ∃ ls, ArgumentReads a ls) :
    ∃ ls, TypeReads (EndsAlike (typeMarks closed).2)
      (((TypeExpr.ofTokens (words ++ ["<"])).append (.ofGroups args)).append
        (.ofTokens (">" :: (typeMarks closed).1))) ls := by
  obtain ⟨m, hm, -⟩ := typeMarks_eq closed
  choose! f hargs using hargs
  refine ⟨(p :: ps).flatMap (·.lexemes) ++ .mark "<" :: (commas (args.map f) ++
    .mark ">" :: m.lexemes), ?_, ?_, fun us r hr hu => ?_⟩
  · have := complete_applied p ps m.fragments fun a ha => (hargs a ha).complete
    rw [m.fragments_texts, m.fragments_lexemes, ← hf.texts] at this
    rw [hm]
    exact this
  · obtain ⟨l, ms, hl, hb⟩ := hf.head
    exact ⟨l, _, by rw [hl, List.cons_append], hb⟩
  · obtain ⟨vs, h1, h2⟩ := hu.split
    have hstop : StopsAlike behind vs := stopsAlike_of_head fun u hv => by
      rw [h2.head u hv]
      decide
    obtain ⟨xs, h3, hs⟩ := h2.skip?_self
    have hs : skip? "<" vs = some xs := hs
    obtain ⟨ys, h4, ha⟩ := arguments?_reads hargs h3
    rw [type?_eq, hf.read hstop h1, Option.bind_some, afterFront, if_neg Bool.false_ne_true, hs]
    simp only [ha, Option.bind_some, typeMarks_spells h4 hr.mark, hm]
    rfl

/-- Whatever is read as a type is read back from its written form. -/
theorem exists_typeReads {e : TypeExpr} (hw : Worded ts) (h : type? ts = some (e, rest)) :
    ∃ ls, TypeReads (EndsAlike rest) e ls := by
  induction hn : ts.length using Nat.strongRecOn generalizing ts e rest with
  | ind n ih =>
    rw [type?_eq] at h
    obtain ⟨⟨⟨words, native⟩, behind⟩, hfront, hback⟩ := Option.bind_eq_some_iff.mp h
    obtain ⟨p, ps, hf⟩ := exists_frontReads hw hfront
    have hadv := advances_typeFront? hfront
    unfold afterFront at hback
    split at hback
    · exact typeReads_marked hf hback
    · next hnative =>
      obtain rfl : native = false := Bool.eq_false_iff.mpr hnative
      split at hback
      · next inner hopen =>
        obtain ⟨⟨args, closed⟩, hargs, heq⟩ := Option.bind_eq_some_iff.mp hback
        cases heq
        have hinner : inner <:+ behind ∧ inner.length < behind.length := suffix_of_skip? hopen
        -- Every argument lies behind the opening bracket, so its tokens are fewer.
        refine typeReads_applied hf (forall_of_arguments? (fun us a r hus ha => ?_) hargs)
        have hwus := hw.of_suffix (hus.trans (hinner.1.trans hadv.1))
        cases us with
        | nil => rw [argument?] at ha; cases ha
        | cons u us =>
          rw [argument?] at ha
          split at ha
          · next hnum =>
            cases ha
            exact ⟨_, argumentReads_number hwus hnum⟩
          · obtain ⟨ls, hls⟩ := ih _ (by have := hus.length_le; omega) hwus ha rfl
            exact ⟨ls, hls.endsType.argument⟩
      · exact typeReads_marked hf hback

end HeaderOutline
