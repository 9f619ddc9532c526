import HeaderOutline.DocComment
import HeaderOutline.Proofs.UnseenLines
/-!
# Comment lines between the lines of a header

Lines that begin with three slashes behind their indentation are put in above the lines of a header,
a block of them above each. Any place will do, a place inside a block comment too, since the new
lines hold no asterisk: they neither close that comment nor open another. So what is read stays the
same, each line at its new place.

`weave` puts the blocks in, and `place` says where a line stands then.

Results:
* `rawLines_weave`: the lines of the new text.
* `ofLines_weave`: what is read of them.
-/
namespace HeaderOutline
open Text

/-! ## Raw lines -/

namespace Text

/-- Lines, each with its line feed; the last one may have none. -/
inductive RawLines : List (List Char) → Prop
  | nil : RawLines []
  | last {l : List Char} : '\n' ∉ l → l ≠ [] → RawLines [l]
  | line {l : List Char} {ls : List (List Char)} : '\n' ∉ l → RawLines ls →
      RawLines ((l ++ ['\n']) :: ls)

theorem rawLines_are (cs : List Char) : RawLines (rawLines cs) := by
  generalize hk : cs.length = k
  induction k using Nat.strongRecOn generalizing cs with
  | ind k ih =>
    have hb := lineHead_noBreak cs
    have hcs := lineHead_append_lineRest cs
    rcases lineRest_cases cs with hr | ⟨r, hr⟩
    · rw [hr, List.append_nil] at hcs
      rw [hcs] at hb
      by_cases hne : cs = []
      · rw [hne]
        exact .nil
      · rw [rawLines_of_noBreak hb hne]
        exact .last hb hne
    · rw [hr] at hcs
      have hlen := congrArg List.length hcs
      rw [List.length_append, List.length_cons] at hlen
      rw [← hcs, rawLines_append_break hb]
      exact .line hb (ih r.length (by omega) r rfl)

theorem RawLines.rawLines_flatten {ls : List (List Char)} (h : RawLines ls) :
    rawLines ls.flatten = ls := by
  induction h with
  | nil => rfl
  | last hb hne => rw [List.flatten_singleton, rawLines_of_noBreak hb hne]
  | line hb _ ih =>
    rw [List.flatten_cons, List.append_assoc, List.singleton_append, rawLines_append_break hb, ih]

theorem RawLines.tail {l : List Char} {ls : List (List Char)} (h : RawLines (l :: ls)) :
    RawLines ls := by
  cases h with
  | last => exact .nil
  | line _ h => exact h

/-- Only the end of a line is a line feed, so there is none in its indentation. -/
theorem RawLines.indent {l : List Char} {ls : List (List Char)} (h : RawLines (l :: ls))
    (hl : trim l ≠ []) : '\n' ∉ l.takeWhile isBlank := by
  obtain ⟨c, r, hr, hc⟩ := (trimStart_eq_nil_or l).resolve_left fun h0 => hl (by rw [trim, h0]; rfl)
  have hsplit := List.takeWhile_append_dropWhile (p := isBlank) (l := l)
  rw [← trimStart, hr] at hsplit
  cases h with
  | last hb => exact fun hm => hb ((List.takeWhile_prefix _).subset hm)
  | @line l' _ hb =>
    intro hm
    generalize (l' ++ ['\n']).takeWhile isBlank = as at hsplit hm
    have hlast : (c :: r).getLast? = some '\n' := by
      have := congrArg List.getLast? hsplit
      rwa [List.getLast?_append_of_ne_nil _ (by simp), List.getLast?_concat] at this
    obtain ⟨r', hr'⟩ := List.getLast?_eq_some_iff.mp hlast
    rw [hr', ← List.append_assoc] at hsplit
    have hl' := (List.append_inj' hsplit rfl).1
    exact hb (hl' ▸ List.mem_append_left _ hm)

end Text

/-! ## Comment lines -/

/-- Behind its indentation the line begins with three slashes, and holds no asterisk there. -/
def IsCommentLine (l : List Char) : Prop :=
  ∃ indent rest, l = indent ++ ("///".toList ++ rest) ++ ['\n'] ∧ (∀ c ∈ indent, isBlank c = true) ∧
    '\n' ∉ indent ∧ '\n' ∉ rest ∧ '*' ∉ rest

namespace SourceLine

theorem strip_blanks {bs : List Char} (h : ∀ c ∈ bs, isBlank c = true) (r : List Char) :
    strip .code (bs ++ r) = (bs ++ (strip .code r).1, (strip .code r).2) := by
  induction bs with
  | nil => rfl
  | cons b bs ih =>
    rw [List.cons_append, strip_blank (h b List.mem_cons_self),
      ih fun c hc => h c (List.mem_cons_of_mem _ hc)]
    rfl

theorem strip_noStar {cs : List Char} (h : '*' ∉ cs) : strip .comment cs = ([], .comment) := by
  induction cs with
  | nil => rfl
  | cons c cs ih =>
    rw [List.mem_cons, not_or] at h
    rw [strip_comment fun hc => absurd hc.symm h.1, ih h.2]

theorem trim_blanks {bs : List Char} (h : ∀ c ∈ bs, isBlank c = true) : trim bs = [] := by
  have h1 := trimStart_blanks h []
  rw [List.append_nil] at h1
  rw [trim, h1]
  rfl

theorem strip_blankLine {m : Mode} (hm : m = .code ∨ m = .comment) {l : List Char}
    (h : trim l = []) : trim (strip m (dropEnd l)).1 = [] := by
  have hl : ∀ c ∈ dropEnd l, isBlank c = true := fun c hc => by
    rcases trimStart_eq_nil_or l with h0 | ⟨d, r, hr, hd⟩
    · exact List.dropWhile_eq_nil_iff.mp h0 c ((dropEnd_front l).subset hc)
    · rw [trim, hr, trimEnd_cons hd] at h
      cases h
  rcases hm with rfl | rfl
  · have hs := strip_blanks hl []
    rw [List.append_nil] at hs
    rw [hs]
    exact trim_blanks (by simpa [strip] using hl)
  · rw [strip_noStar fun hc => absurd (hl _ hc) (by decide)]
    rfl

theorem trim_ne_nil_of_mem_ofLines {m : Mode} (hm : m = .code ∨ m = .comment) {n i : Nat}
    {ls : List (List Char)} {x : SourceLine} {l : List Char}
    (h : x ∈ ofLines m n (ls.map dropEnd)) (hl : ls[i]? = some l) (hn : x.number = n + i) :
    trim l ≠ [] := by
  induction ls generalizing m n i with
  | nil => cases hl
  | cons k ls ih =>
    have hnext := nextLine_cases (strip m (dropEnd k)).2
    simp only [List.map_cons, ofLines] at h
    cases i with
    | zero =>
      cases hl
      intro h0
      rw [strip_blankLine hm h0, List.isEmpty_nil, if_pos rfl] at h
      have := (number_of_mem_ofLines h).1
      omega
    | succ i =>
      refine ih hnext (n := n + 1) ?_ hl (by omega)
      split at h
      · exact h
      · rcases List.mem_cons.mp h with rfl | h
        · simp only at hn
          omega
        · exact h

/-- A comment line is not seen, neither in the code nor in a block comment, and leaves no trace. -/
theorem strip_commentLine {m : Mode} (hm : m = .code ∨ m = .comment) {l : List Char}
    (h : IsCommentLine l) :
    trim (strip m (dropEnd l)).1 = [] ∧ (strip m (dropEnd l)).2 = m := by
  obtain ⟨indent, rest, rfl, hi, hbi, hbr, hstar⟩ := h
  have hb : '\n' ∉ indent ++ ("///".toList ++ rest) := by
    simp only [List.mem_append, not_or]
    exact ⟨hbi, by decide, hbr⟩
  obtain ⟨h1, h2⟩ := strip_dropEnd hm hb
  rw [h1, h2]
  rcases hm with rfl | rfl
  · have hs : strip .code ("///".toList ++ rest) = ([], .code) := by
      show strip .code ('/' :: '/' :: '/' :: rest) = _
      rw [strip]
    rw [strip_blanks hi, hs, List.append_nil]
    exact ⟨trim_blanks hi, rfl⟩
  · have hs : '*' ∉ indent ++ ("///".toList ++ rest) := by
      simp only [List.mem_append, not_or]
      exact ⟨fun hm => absurd (hi _ hm) (by decide), by decide, hstar⟩
    rw [strip_noStar hs]
    exact ⟨rfl, rfl⟩

theorem ofLines_commentLines {m : Mode} (hm : m = .code ∨ m = .comment) {b : List (List Char)}
    (hb : ∀ l ∈ b, IsCommentLine l) (n : Nat) (ls : List (List Char)) :
    ofLines m n (b.map dropEnd ++ ls) = ofLines m (n + b.length) ls := by
  induction b generalizing n with
  | nil => rfl
  | cons l b ih =>
    obtain ⟨h1, h2⟩ := strip_commentLine hm (hb l List.mem_cons_self)
    have hnext : m.nextLine = m := by rcases hm with rfl | rfl <;> rfl
    have hn : n + (l :: b).length = n + 1 + b.length := by simp only [List.length_cons]; omega
    rw [List.map_cons, List.cons_append, hn]
    simp only [ofLines, h1, h2, hnext, List.isEmpty_nil, if_true]
    exact ih (fun k hk => hb k (List.mem_cons_of_mem _ hk)) (n + 1)

end SourceLine

theorem Text.RawLines.commentLines {b ls : List (List Char)} (h : RawLines ls)
    (hb : ∀ l ∈ b, IsCommentLine l) : RawLines (b ++ ls) := by
  induction b with
  | nil => exact h
  | cons l b ih =>
    obtain ⟨indent, rest, rfl, -, hbi, hbr, -⟩ := hb l List.mem_cons_self
    refine .line ?_ (ih fun k hk => hb k (List.mem_cons_of_mem _ hk))
    simp only [List.mem_append, not_or]
    exact ⟨hbi, by decide, hbr⟩

/-! ## Blocks above lines -/

namespace DocComment

/-- Lines, each with its block of new lines right above it. -/
def weave : List (List (List Char)) → List (List Char) → List Line
  | b :: bs, l :: ls => b.map (⟨·, true⟩) ++ ⟨l, false⟩ :: weave bs ls
  | _, _ => []

/-- The number that line `n` bears once the blocks stand above the first lines. -/
def place : List (List (List Char)) → Nat → Nat
  | b :: bs, n + 1 => b.length + 1 + place bs n
  | _, n => n

variable {bs : List (List (List Char))} {ls : List (List Char)}

theorem place_zero (bs : List (List (List Char))) : place bs 0 = 0 := by
  cases bs <;> rfl

theorem place_lt (bs : List (List (List Char))) {m n : Nat} (h : m < n) :
    place bs m < place bs n := by
  induction bs generalizing m n with
  | nil => exact h
  | cons b bs ih =>
    obtain ⟨n, rfl⟩ : ∃ k, n = k + 1 := ⟨n - 1, by omega⟩
    cases m with
    | zero =>
      rw [place_zero]
      simp only [place]
      omega
    | succ m =>
      have := ih (Nat.lt_of_succ_lt_succ h)
      simp only [place]
      omega

theorem place_succ_pos (bs : List (List (List Char))) (n : Nat) : 0 < place bs (n + 1) :=
  place_zero bs ▸ place_lt bs n.succ_pos

theorem place_injective (bs : List (List (List Char))) : Function.Injective (place bs) := by
  intro m n h
  rcases Nat.lt_trichotomy m n with hlt | heq | hlt
  · exact absurd h (Nat.ne_of_lt (place_lt bs hlt))
  · exact heq
  · exact absurd h.symm (Nat.ne_of_lt (place_lt bs hlt))

theorem texts_weave_cons (b : List (List Char)) (bs : List (List (List Char))) (l : List Char)
    (ls : List (List Char)) :
    (weave (b :: bs) (l :: ls)).map (·.text) = b ++ l :: (weave bs ls).map (·.text) := by
  simp [weave, Function.comp_def]

theorem length_weave (hlen : bs.length = ls.length) :
    (weave bs ls).length = ls.length + bs.flatten.length := by
  induction bs generalizing ls with
  | nil =>
    obtain rfl := List.eq_nil_of_length_eq_zero hlen.symm
    rfl
  | cons b bs ih =>
    obtain ⟨l, ls, rfl⟩ := List.exists_cons_of_length_eq_add_one hlen.symm
    have := ih (Nat.succ.inj hlen)
    simp only [weave, List.length_append, List.length_map, List.length_cons, List.flatten_cons]
    omega

/-- The lines of the new text are those of the old one and the new ones. -/
theorem rawLines_weave (hls : RawLines ls) (hlen : bs.length = ls.length)
    (hbs : ∀ b ∈ bs, ∀ l ∈ b, IsCommentLine l) : RawLines ((weave bs ls).map (·.text)) := by
  induction bs generalizing ls with
  | nil => exact .nil
  | cons b bs ih =>
    obtain ⟨l, ls, rfl⟩ := List.exists_cons_of_length_eq_add_one hlen.symm
    have hw := ih hls.tail (Nat.succ.inj hlen) fun b' hb' => hbs b' (List.mem_cons_of_mem _ hb')
    have hl : RawLines (l :: (weave bs ls).map (·.text)) := by
      cases hls with
      | last hn hne =>
        obtain rfl := List.eq_nil_of_length_eq_zero (Nat.succ.inj hlen)
        exact .last hn hne
      | line hn => exact .line hn hw
    rw [texts_weave_cons]
    exact hl.commentLines (hbs b List.mem_cons_self)

theorem getElem?_weave (hlen : bs.length = ls.length) (i : Nat) :
    (weave bs ls)[place bs (i + 1) - 1]? = ls[i]?.map (⟨·, false⟩) := by
  induction bs generalizing ls i with
  | nil =>
    obtain rfl := List.eq_nil_of_length_eq_zero hlen.symm
    rfl
  | cons b bs ih =>
    obtain ⟨l, ls, rfl⟩ := List.exists_cons_of_length_eq_add_one hlen.symm
    have hpos : ∀ k, place (b :: bs) (k + 1) - 1 = b.length + place bs k := fun k => by
      simp only [place]
      omega
    rw [hpos, weave, List.getElem?_append_right (by simp), List.length_map,
      Nat.add_sub_cancel_left]
    cases i with
    | zero => rw [place_zero]; rfl
    | succ i =>
      rw [← Nat.sub_add_cancel (place_succ_pos bs i), List.getElem?_cons_succ,
        ih (Nat.succ.inj hlen), List.getElem?_cons_succ]

open SourceLine in
/-- What is read of the lines stays, but each line at its new place. -/
theorem ofLines_weave {m : Mode} (hm : m = .code ∨ m = .comment) (hlen : bs.length = ls.length)
    (hbs : ∀ b ∈ bs, ∀ l ∈ b, IsCommentLine l) :
    ofLines m 1 (((weave bs ls).map (·.text)).map dropEnd) =
      (ofLines m 1 (ls.map dropEnd)).map (.renumber (place bs)) := by
  induction bs generalizing ls m with
  | nil =>
    obtain rfl := List.eq_nil_of_length_eq_zero hlen.symm
    rfl
  | cons b bs ih =>
    obtain ⟨l, ls, rfl⟩ := List.exists_cons_of_length_eq_add_one hlen.symm
    have ih := ih (nextLine_cases (strip m (dropEnd l)).2) (Nat.succ.inj hlen)
      fun b' hb' => hbs b' (List.mem_cons_of_mem _ hb')
    have hn : 1 + b.length = place (b :: bs) 1 := by
      simp only [place, place_zero]
      omega
    -- The lines below have moved by the block and the line itself, beyond their own blocks.
    have hlater : ∀ xs : List SourceLine,
        (xs.map (renumber (place bs))).map (renumber (· + (b.length + 1))) =
          (xs.map (renumber (· + 1))).map (renumber (place (b :: bs))) := fun xs => by
      simp only [List.map_map]
      refine List.map_congr_left fun x _ => ?_
      simp only [Function.comp_apply, renumber, place]
      congr 1
      omega
    rw [texts_weave_cons, List.map_append, List.map_cons, List.map_cons,
      ofLines_commentLines hm (hbs b List.mem_cons_self)]
    simp only [ofLines]
    rw [Nat.add_assoc, ofLines_add, ih, hlater, ← ofLines_add, hn]
    split <;> rfl

end DocComment

end HeaderOutline
