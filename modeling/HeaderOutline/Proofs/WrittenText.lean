import HeaderOutline.Proofs.Delimiters
import HeaderOutline.Proofs.Spelling
import HeaderOutline.TypeExpr
/-!
# Texts with few blanks

`Written cs ls`: the text `cs` is read as the lexemes `ls`, whatever follows that does not run
together with it. Only words run together: a mark is read alike next to anything, except for a
single colon or dot, and these are not asked for. So a text is put together from words and marks,
with a blank wherever two words would meet. It stands on one line, and it holds nothing but blanks
and ink: no brace, no semicolon, no quote, and neither a slash nor a `#`.

The written form of a type has blanks in just these places, and one between two closing angle
brackets. Commas stand before all of its groups but the first, which is told by the angle bracket
that the text ends with; `Complete` says that a text does not end with one.

Results:
* `Written.append`, `Written.append_blank`: texts put together.
* `Written.ofTokens`, `Written.ofGroups`: the written form of a flat type, and of the arguments
  behind an angle bracket.
-/
namespace HeaderOutline
open Text

/-! ## What runs together -/

/-- The end of the one text does not run together with the beginning of the other. -/
def Apart (cs ds : List Char) : Prop :=
  ∀ p ∈ cs.getLast?, ∀ n ∈ ds.head?, ¬(isNameChar p = true ∧ isNameChar n = true)

/-- A character that neither parts lines, tokens or declarations nor begins a comment. -/
def isInk (c : Char) : Bool :=
  !isBlank c && !isQuote c && !isDelimiterChar c && c != '#' && c != '/'

/-- The text is read as the lexemes, whatever follows that does not run together with it. It is made
of ink and single blanks, and these stand inside. -/
structure Written (cs : List Char) (ls : List Lexeme) : Prop where
  plain : ∀ l ∈ ls, l.isPlain = true
  inked : ∀ c ∈ cs, c = ' ' ∨ isInk c = true
  starts : ∀ c ∈ cs.head?, isInk c = true
  ends : ∀ c ∈ cs.getLast?, isInk c = true
  lexes : ∀ ds, Apart cs ds → ∃ ts, Lexes (cs ++ ds) ts ds ∧ ts.map Token.bare = ls

variable {cs ds : List Char} {ls ms : List Lexeme}

theorem apart_nil (cs : List Char) : Apart cs [] := fun _ _ _ hn => by cases hn

theorem apart_of_last (h : cs.getLast?.any isNameChar = false) (ds : List Char) :
    Apart cs ds := fun p hp _ _ hpn => by
  rw [Option.mem_def.mp hp, Option.any_some, hpn.1] at h
  cases h

theorem apart_of_head (cs : List Char) (h : ds.head?.any isNameChar = false) :
    Apart cs ds := fun _ _ n hn hpn => by
  rw [Option.mem_def.mp hn, Option.any_some, hpn.2] at h
  cases h

theorem apart_blank (cs ds : List Char) : Apart cs (' ' :: ds) :=
  apart_of_head cs (show isNameChar ' ' = false by decide)

/-- A lexeme that is read alike whatever mark follows it. -/
def Lexeme.isSolo (l : Lexeme) : Bool :=
  l.isPlain && l.text != ":" && l.text != "." && l.chars.all isInk

theorem Lexeme.isSolo_iff {l : Lexeme} : l.isSolo = true ↔
    l.isPlain = true ∧ l.text ≠ ":" ∧ l.text ≠ "." ∧ ∀ c ∈ l.chars, isInk c = true := by
  simp [isSolo, and_assoc]

theorem isInk_of_isNameChar {c : Char} (h : isNameChar c = true) : isInk c = true := by
  have hne : ∀ d, isNameChar d = false → c ≠ d := fun d hd he => by
    rw [he, hd] at h
    cases h
  simp [isInk, isBlank_of_isNameChar h, isQuote, isDelimiterChar, hne '\x22' (by decide),
    hne '\'' (by decide), hne '\x7b' (by decide), hne '\x7d' (by decide), hne ';' (by decide),
    hne '#' (by decide), hne '/' (by decide)]

theorem lexeme_word {c : Char} {w : List Char} (hw : ∀ d ∈ c :: w, isNameChar d = true)
    (h : Apart (c :: w) ds) : Token.lexeme c (w ++ ds) = (.word, c :: w, ds) := by
  have hds : ds.takeWhile isNameChar = [] ∧ ds.dropWhile isNameChar = ds := by
    cases ds with
    | nil => exact ⟨rfl, rfl⟩
    | cons d ds =>
      have hlast := hw _ (List.getLast_mem (List.cons_ne_nil c w))
      have hd : isNameChar d = false := Bool.eq_false_iff.mpr fun hd =>
        h _ (List.getLast?_eq_some_getLast (List.cons_ne_nil c w)) d rfl ⟨hlast, hd⟩
      simp [hd]
  have hw' : ∀ d ∈ w, isNameChar d = true := fun d hd => hw d (List.mem_cons_of_mem c hd)
  unfold Token.lexeme
  rw [if_pos (hw c List.mem_cons_self), List.takeWhile_append_of_pos hw',
    List.dropWhile_append_of_pos hw', hds.1, hds.2, List.append_nil]

theorem next?_solo {l : Lexeme} (hl : l.isSolo = true) (h : Apart l.chars ds) :
    Token.next? (l.chars ++ ds) = some (l.token false, ds) := by
  obtain ⟨hp, hcolon, hdot, -⟩ := Lexeme.isSolo_iff.mp hl
  obtain ⟨kind, text⟩ := l
  have ht : text = String.ofList text.toList := String.ofList_toList.symm
  simp only [Lexeme.chars, Lexeme.token, Lexeme.isPlain] at hp h ⊢
  cases kind with
  | word =>
    simp only [Bool.and_eq_true, Bool.not_eq_true', List.all_eq_true] at hp
    obtain ⟨hne, hall⟩ := hp
    cases hw : text.toList with
    | nil => rw [hw] at hne; cases hne
    | cons c w =>
      rw [hw] at hall ht h
      rw [ht]
      exact (next?_of_lexeme (isSpace_of_isNameChar (hall c List.mem_cons_self))
        (lexeme_word hall h)).1
  | mark =>
    simp only [Bool.or_eq_true, beq_iff_eq, Bool.and_eq_true, List.all_eq_true] at hp
    rcases hp with (hw | hw) | ⟨hlen, hall⟩
    · rw [hw] at ht ⊢
      rw [ht]
      exact (next?_of_lexeme (by decide) rfl).1
    · rw [hw] at ht ⊢
      rw [ht]
      exact (next?_of_lexeme (by decide) rfl).1
    · obtain ⟨c, hw⟩ := List.length_eq_one_iff.mp hlen
      rw [hw] at hall ht ⊢
      have hc := hall c List.mem_cons_self
      simp only [Lexeme.isMarkChar, Bool.and_eq_true, Bool.not_eq_true', decide_eq_true_eq] at hc
      obtain ⟨⟨⟨⟨-, h1⟩, h2⟩, h3⟩, -⟩ := hc
      have hx : Token.lexeme c ds = (.mark, [c], ds) := by
        unfold Token.lexeme
        rw [if_neg (by simp [h1]), if_neg (by simp [h2])]
        split
        · exact absurd ht hcolon
        · exact absurd ht hdot
        · rfl
      rw [ht]
      exact (next?_of_lexeme h3 hx).1
  | literal => cases hp

theorem next?_blank {r : List Char} {t : Token} (h : Token.next? cs = some (t, r)) :
    Token.next? (' ' :: cs) = some (t.bare.token true, r) := by
  have hsp : isSpace ' ' = true := by decide
  unfold Token.next? at h ⊢
  rw [List.dropWhile_cons, if_pos hsp]
  split at h
  · cases h
  · simp only [Option.some.injEq, Prod.mk.injEq] at h
    obtain ⟨rfl, rfl⟩ := h
    simp [hsp, Token.bare, Lexeme.token]

theorem spells_bare (rest : List Token) (ts : List Token) :
    Spells rest (ts.map Token.bare) (ts ++ rest) := by
  induction ts with
  | nil => exact .nil
  | cons t ts ih => exact .cons t ih

theorem isBlank_of_isInk {c : Char} (h : isInk c = true) : isBlank c = false := by
  simp only [isInk, Bool.and_eq_true, Bool.not_eq_true'] at h
  exact h.1.1.1.1

/-! ## Texts put together -/

namespace Written

theorem nil : Written [] [] :=
  ⟨by simp, by simp, by simp, by simp, fun ds _ => ⟨[], .nil ds, rfl⟩⟩

theorem single {l : Lexeme} (hl : l.isSolo = true) : Written l.chars [l] where
  plain m hm := by
    rw [List.mem_singleton.mp hm]
    exact (Lexeme.isSolo_iff.mp hl).1
  inked c hc := .inr ((Lexeme.isSolo_iff.mp hl).2.2.2 c hc)
  starts c hc := (Lexeme.isSolo_iff.mp hl).2.2.2 c (List.mem_of_mem_head? hc)
  ends c hc := (Lexeme.isSolo_iff.mp hl).2.2.2 c (List.mem_of_getLast? hc)
  lexes ds h := ⟨[l.token false], .cons (next?_solo hl h) (.nil ds), rfl⟩

theorem eq_nil (h : Written [] ls) : ls = [] := by
  obtain ⟨ts, h1, rfl⟩ := h.lexes [] (apart_nil [])
  cases h1 with
  | nil => rfl
  | cons hn _ => cases hn

theorem ne_nil (h : Written cs ls) (hne : ls ≠ []) : cs ≠ [] := by
  rintro rfl
  exact hne h.eq_nil

theorem text_eq_nil (h : Written cs []) : cs = [] := by
  obtain ⟨ts, h1, h2⟩ := h.lexes [] (apart_nil cs)
  rw [List.map_eq_nil_iff.mp h2, List.append_nil] at h1
  cases h1
  rfl

theorem append (h : Written cs ls) (h' : Written ds ms) (ha : Apart cs ds) :
    Written (cs ++ ds) (ls ++ ms) where
  plain l hl := (List.mem_append.mp hl).elim (h.plain l) (h'.plain l)
  inked c hc := (List.mem_append.mp hc).elim (h.inked c) (h'.inked c)
  starts := by
    cases cs with
    | nil => exact h'.starts
    | cons c cs => exact h.starts
  ends := by
    by_cases hne : ds = []
    · rw [hne, List.append_nil]
      exact h.ends
    · rw [List.getLast?_append_of_ne_nil _ hne]
      exact h'.ends
  lexes es hes := by
    by_cases hne : ds = []
    · subst hne
      rw [h'.eq_nil, List.append_nil]
      rw [List.append_nil] at hes ⊢
      exact h.lexes es hes
    · have hd : Apart ds es := fun p hp => hes p (by
        rw [List.getLast?_append, Option.mem_def.mp hp]
        rfl)
      have hc : Apart cs (ds ++ es) := fun p hp n hn => ha p hp n (by
        rwa [List.head?_append_of_ne_nil _ hne] at hn)
      obtain ⟨ts, h1, h2⟩ := h.lexes _ hc
      obtain ⟨us, h3, h4⟩ := h'.lexes es hd
      refine ⟨ts ++ us, ?_, by rw [List.map_append, h2, h4]⟩
      rw [List.append_assoc]
      exact h1.append h3

/-- Two texts that are not empty, with a blank between them. -/
theorem append_blank (h : Written cs ls) (hl : ls ≠ []) (h' : Written ds ms) (hm : ms ≠ []) :
    Written (cs ++ ' ' :: ds) (ls ++ ms) where
  plain l hl := (List.mem_append.mp hl).elim (h.plain l) (h'.plain l)
  inked c hc := by
    rcases List.mem_append.mp hc with hc | hc
    · exact h.inked c hc
    · rcases List.mem_cons.mp hc with rfl | hc
      · exact .inl rfl
      · exact h'.inked c hc
  starts := by
    obtain ⟨c, cs, rfl⟩ := List.exists_cons_of_ne_nil (h.ne_nil hl)
    exact h.starts
  ends := by
    obtain ⟨d, ds, rfl⟩ := List.exists_cons_of_ne_nil (h'.ne_nil hm)
    simpa [List.getLast?_append] using h'.ends
  lexes es hes := by
    have hd : Apart ds es := fun p hp => hes p (by
      rw [List.getLast?_append, List.getLast?_cons, Option.mem_def.mp hp]
      rfl)
    obtain ⟨ts, h1, rfl⟩ := h.lexes _ (apart_blank cs (ds ++ es))
    obtain ⟨us, h2, rfl⟩ := h'.lexes es hd
    rw [List.append_assoc, List.cons_append]
    generalize ds ++ es = xs at h1 h2 ⊢
    -- The blank is counted to the first token behind it.
    cases h2 with
    | nil => exact absurd rfl hm
    | @cons _ _ _ t us hn h2 =>
      exact ⟨ts ++ t.bare.token true :: us, h1.append (.cons (next?_blank hn) h2), by
        rw [List.map_append]
        rfl⟩

theorem spells (h : Written cs ls) (ha : Apart cs ds) :
    Spells (Token.tokens ds) ls (Token.tokens (cs ++ ds)) := by
  obtain ⟨ts, h1, rfl⟩ := h.lexes ds ha
  rw [h1.tokens]
  exact spells_bare _ ts

theorem solid (h : Written cs ls) (hne : ls ≠ []) : Solid cs where
  head := by
    obtain ⟨c, r, rfl⟩ := List.exists_cons_of_ne_nil (h.ne_nil hne)
    exact ⟨c, r, rfl, isBlank_of_isInk (h.starts c rfl)⟩
  last := by
    obtain ⟨r, c, hc⟩ := (List.eq_nil_or_concat cs).resolve_left (h.ne_nil hne)
    rw [List.concat_eq_append] at hc
    exact ⟨r, c, hc, isBlank_of_isInk (h.ends c (by simp [hc]))⟩
  noBreak hm := by
    rcases h.inked _ hm with h | h
    · exact absurd h (by decide)
    · exact absurd h (by decide)

theorem quiet (h : Written cs ls) : Quiet cs := by
  have hc : ∀ c ∈ cs, (isQuote c = false ∧ c ≠ '#') ∧ isDelimiterChar c = false := fun c hc => by
    rcases h.inked c hc with rfl | hink
    · decide
    · simp only [isInk, Bool.and_eq_true, Bool.not_eq_true', bne_iff_ne] at hink
      exact ⟨⟨hink.1.1.1.2, hink.1.2⟩, hink.1.1.2⟩
  exact ⟨fun c h => (hc c h).1, fun c h => (hc c h).2⟩

end Written

/-! ## Written types -/

/-- The text is read as the lexemes, and no arguments begin at its end. -/
structure Complete (cs : List Char) (ls : List Lexeme) : Prop extends Written cs ls where
  last : cs.getLast? ≠ some '<'
  ne_nil : ls ≠ []

theorem Complete.of_append {w : List Char} (hw : Written (w ++ cs) ls) (h : Complete cs ms)
    (hne : ls ≠ []) : Complete (w ++ cs) ls where
  toWritten := hw
  last := by
    rw [List.getLast?_append_of_ne_nil _ (h.toWritten.ne_nil h.ne_nil)]
    exact h.last
  ne_nil := hne

theorem Written.append_complete (h : Written cs ls) (h' : Complete ds ms) (ha : Apart cs ds) :
    Complete (cs ++ ds) (ls ++ ms) :=
  h'.of_append (h.append h'.toWritten ha)
    (List.append_ne_nil_of_right_ne_nil _ h'.ne_nil)

theorem Written.complete_blank (h : Written cs ls) (hl : ls ≠ []) (h' : Complete ds ms) :
    Complete (cs ++ ' ' :: ds) (ls ++ ms) := by
  have hw : Written (cs ++ [' '] ++ ds) (ls ++ ms) := by
    simpa using h.append_blank hl h'.toWritten h'.ne_nil
  simpa using h'.of_append hw (List.append_ne_nil_of_right_ne_nil _ h'.ne_nil)

theorem complete_word {text : String} (h : (Lexeme.word text).isPlain = true) :
    Complete text.toList [.word text] where
  toWritten := by
    have hall := h
    simp only [Lexeme.isPlain, Lexeme.word, Lexeme.chars, Bool.and_eq_true, List.all_eq_true]
      at hall
    refine .single (Lexeme.isSolo_iff.mpr ⟨h, ?_, ?_, fun c hc => ?_⟩)
    · rintro rfl
      revert h
      decide
    · rintro rfl
      revert h
      decide
    · exact isInk_of_isNameChar (hall.2 c hc)
  last hl := by
    simp only [Lexeme.isPlain, Lexeme.word, Lexeme.chars, Bool.and_eq_true] at h
    exact absurd (List.all_eq_true.mp h.2 '<' (List.mem_of_getLast? hl)) (by decide)
  ne_nil := List.cons_ne_nil _ _

theorem complete_mark {text : String} (h : (Lexeme.mark text).isSolo = true)
    (hl : text.toList.getLast? ≠ some '<') : Complete text.toList [.mark text] where
  toWritten := .single h
  last := hl
  ne_nil := List.cons_ne_nil _ _

namespace TypeExpr

theorem renderAfter_append (w : List Char) (a b : TypeExpr) :
    renderAfter w (a.append b) = renderAfter (renderAfter w a) b := by
  induction a generalizing w with
  | nil => rfl
  | token t r ih => exact ih _
  | group inner r _ ih => exact ih _

theorem ofTokens_append (xs ys : List String) :
    ofTokens (xs ++ ys) = (ofTokens xs).append (ofTokens ys) := by
  induction xs with
  | nil => rfl
  | cons x xs ih => exact congrArg (token x) ih

theorem apart_of_needsBlank {w next : List Char} (h : needsBlank w next = false) :
    Apart w next := by
  intro p hp n hn hpn
  have hident : ∀ c, isNameChar c = true → isIdentChar c = true := fun c hc => by
    rw [isIdentChar, isAlphanumeric, if_pos (ascii_of_isNameChar hc)]
    exact hc
  simp only [needsBlank, Option.mem_def.mp hp, Option.mem_def.mp hn, Bool.or_eq_false_iff,
    Bool.and_eq_false_iff] at h
  rcases h.1.2 with h | h
  · rw [hident p hpn.1] at h
    cases h
  · rw [hident n hpn.2] at h
    cases h

end TypeExpr

open TypeExpr

variable {w : List Char} {t : String}

theorem Written.token (h : Written w ms) (ht : Written t.toList ls) (hne : ls ≠ []) :
    Written (w ++ (if needsBlank w t.toList then [' '] else []) ++ t.toList) (ms ++ ls) := by
  cases hb : needsBlank w t.toList with
  | true =>
    have hms : ms ≠ [] := by
      rintro rfl
      rw [h.text_eq_nil] at hb
      cases hb
    simpa using h.append_blank hms ht hne
  | false => simpa using h.append ht (apart_of_needsBlank hb)

theorem Written.complete_token (h : Written w ms) (ht : Complete t.toList ls) :
    Complete (w ++ (if needsBlank w t.toList then [' '] else []) ++ t.toList) (ms ++ ls) :=
  ht.of_append (h.token ht.toWritten ht.ne_nil) (List.append_ne_nil_of_right_ne_nil _ ht.ne_nil)

/-- A piece of text with its lexemes. -/
structure Fragment where
  text : String
  lexemes : List Lexeme
  complete : Complete text.toList lexemes

theorem Complete.ofTokens (h : Complete w ms) (ps : List Fragment) :
    Complete (renderAfter w (.ofTokens (ps.map (·.text)))) (ms ++ ps.flatMap (·.lexemes)) := by
  induction ps generalizing w ms with
  | nil =>
    rw [List.flatMap_nil, List.append_nil]
    exact h
  | cons p ps ih =>
    rw [List.flatMap_cons, ← List.append_assoc]
    exact ih (h.complete_token p.complete)

/-- A flat type that is not empty. -/
theorem Written.ofTokens (h : Written w ms) (p : Fragment) (ps : List Fragment) :
    Complete (renderAfter w (.ofTokens ((p :: ps).map (·.text))))
      (ms ++ (p :: ps).flatMap (·.lexemes)) := by
  rw [List.flatMap_cons, ← List.append_assoc]
  exact (h.complete_token p.complete).ofTokens ps

/-! ## Written arguments -/

theorem commas_eq (item : List Lexeme) (items : List (List Lexeme)) :
    commas (item :: items) = item ++ items.flatMap (.mark "," :: ·) := by
  induction items generalizing item with
  | nil => simp [commas_cons]
  | cons i is ih => rw [commas_cons, ih]; simp

variable {f : TypeExpr → List Lexeme} {args : List TypeExpr}

theorem Complete.ofGroups (h : Complete w ms)
    (hargs : ∀ a ∈ args, Complete (renderAfter [] a) (f a)) :
    Complete (renderAfter w (.ofGroups args)) (ms ++ args.flatMap fun a => .mark "," :: f a) := by
  induction args generalizing w ms with
  | nil =>
    rw [List.flatMap_nil, List.append_nil]
    exact h
  | cons a args ih =>
    have ha := hargs a List.mem_cons_self
    have hmark : groupMark w = ",".toList ++ [' '] := by
      rw [groupMark, List.isEmpty_eq_false_iff.mpr (h.toWritten.ne_nil h.ne_nil), Bool.false_or,
        if_neg (by simpa using h.last)]
      decide
    have hcomma := h.append (.single (l := .mark ",") (by decide))
      (apart_of_head w (by decide))
    have hgroup : Complete (w ++ groupMark w ++ renderAfter [] a) (ms ++ .mark "," :: f a) := by
      have := hcomma.complete_blank (by simp) ha
      rw [hmark]
      simpa [Lexeme.chars, Lexeme.mark] using this
    rw [List.flatMap_cons, ← List.append_assoc]
    exact ih hgroup fun b hb => hargs b (List.mem_cons_of_mem a hb)

/-- The arguments behind an opening angle bracket. -/
theorem Written.ofGroups (h : Written w ms) (hw : w.getLast? = some '<')
    (hargs : ∀ a ∈ args, Complete (renderAfter [] a) (f a)) :
    Written (renderAfter w (.ofGroups args)) (ms ++ commas (args.map f)) := by
  cases args with
  | nil =>
    rw [show commas ([].map f) = [] from rfl, List.append_nil]
    exact h
  | cons a args =>
    have ha := hargs a List.mem_cons_self
    have hmark : groupMark w = [] := by simp [groupMark, hw]
    have hapart : Apart w (renderAfter [] a) := apart_of_last (by rw [hw]; decide) _
    have hgroup : Complete (w ++ groupMark w ++ renderAfter [] a) (ms ++ f a) := by
      have := h.append_complete ha hapart
      simpa [hmark] using this
    rw [List.map_cons, commas_eq, List.flatMap_map, ← List.append_assoc]
    exact (hgroup.ofGroups fun b hb => hargs b (List.mem_cons_of_mem a hb)).toWritten

theorem complete_applied (p : Fragment) (ps marks : List Fragment)
    (hargs : ∀ a ∈ args, Complete (renderAfter [] a) (f a)) :
    Complete (renderAfter [] (((TypeExpr.ofTokens ((p :: ps).map (·.text) ++ ["<"])).append
        (.ofGroups args)).append (.ofTokens (">" :: marks.map (·.text)))))
      ((p :: ps).flatMap (·.lexemes) ++ .mark "<" :: (commas (args.map f) ++
        .mark ">" :: marks.flatMap (·.lexemes))) := by
  rw [renderAfter_append, renderAfter_append, ofTokens_append, renderAfter_append]
  have hfront := (Written.nil.ofTokens p ps).toWritten
  rw [List.nil_append] at hfront
  generalize renderAfter [] (.ofTokens ((p :: ps).map (·.text))) = w at hfront ⊢
  have hopen : Written (renderAfter w (.ofTokens ["<"]))
      ((p :: ps).flatMap (·.lexemes) ++ [.mark "<"]) :=
    hfront.token (t := "<") (.single (l := .mark "<") (by decide)) (by decide)
  have hlast : (renderAfter w (.ofTokens ["<"])).getLast? = some '<' := by
    simp [TypeExpr.ofTokens, renderAfter]
  have hclose : Complete ">".toList [.mark ">"] := complete_mark (by decide) (by decide)
  have hall := (hopen.ofGroups hlast hargs).ofTokens ⟨">", _, hclose⟩ marks
  simpa using hall

end HeaderOutline
