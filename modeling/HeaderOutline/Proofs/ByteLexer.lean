import HeaderOutline.Proofs.TokenSpans
/-!
# Lexing bytes

The loop of a lexer over the UTF-8 bytes of a text. It looks at single bytes to tell spaces, words
and quotes, and cuts the text at places between bytes for everything else; a cut inside a character
fails. Bytes of a character beyond ASCII are no spaces, word bytes or quotes, so every cut is
between characters and the loop always comes to its end. What it finds are the spans of the tokens.

Results:
* `ofUInt8_agrees`: any byte of a character tells whether it is in a class of ASCII.
* `size?_utf8`: the size in bytes of the token in front of a text.
* `scan?_utf8`: the loop finds the spans, from any token on.
* `tokens_lossless`: the spans are those of the tokens. They lie in order between characters, have
  the texts between their ends and leave only spaces, and the text behind any of them reads as the
  remaining tokens.
-/
namespace HeaderOutline
open Text

namespace Token

/-! ## UTF-8 -/

def utf8 (cs : List Char) : List UInt8 :=
  cs.flatMap String.utf8EncodeChar

def bytes (s : String) : List UInt8 :=
  s.toByteArray.data.toList

/-- The text that bytes stand for, unless they begin or end inside a character. -/
def decode? (bs : List UInt8) : Option (List Char) :=
  bs.toByteArray.utf8Decode?.map Array.toList

theorem bytes_eq (s : String) : bytes s = utf8 s.toList := by
  rw [bytes, ← String.utf8Encode_toList, List.utf8Encode, List.data_toByteArray]
  rfl

theorem utf8_append (cs ds : List Char) : utf8 (cs ++ ds) = utf8 cs ++ utf8 ds :=
  List.flatMap_append

theorem utf8_cons (c : Char) (cs : List Char) :
    utf8 (c :: cs) = String.utf8EncodeChar c ++ utf8 cs :=
  List.flatMap_cons

theorem length_utf8 (cs : List Char) : (utf8 cs).length = String.utf8Len cs := by
  induction cs with
  | nil => rfl
  | cons c cs ih =>
    rw [utf8_cons, List.length_append, ih, String.length_utf8EncodeChar, String.utf8Len_cons,
      Nat.add_comm]

theorem decode?_utf8 (cs : List Char) : decode? (utf8 cs) = some cs := by
  have h : (utf8 cs).toByteArray = cs.utf8Encode := rfl
  rw [decode?, h, List.utf8Decode?_utf8Encode]
  rfl

theorem exists_utf8EncodeChar (c : Char) : ∃ b bs, String.utf8EncodeChar c = b :: bs :=
  List.exists_cons_of_length_pos (by rw [String.length_utf8EncodeChar]; exact c.utf8Size_pos)

theorem utf8EncodeChar_of_ascii {c : Char} (h : c.toNat < 128) :
    String.utf8EncodeChar c = [UInt8.ofNat c.toNat] := by
  have hv : c.val.toNat ≤ 0x7f := Nat.le_of_lt_succ h
  simp only [String.utf8EncodeChar, if_pos hv]
  rfl

theorem utf8Size_of_ascii {c : Char} (h : c.toNat < 128) : c.utf8Size = 1 := by
  rw [← String.length_utf8EncodeChar, utf8EncodeChar_of_ascii h, List.length_singleton]

/-- The bytes of a character beyond ASCII are beyond ASCII. -/
theorem le_of_mem_utf8EncodeChar {c : Char} (h : 128 ≤ c.toNat) {b : UInt8}
    (hb : b ∈ String.utf8EncodeChar c) : 128 ≤ b.toNat := by
  have hv : ¬ c.val.toNat ≤ 0x7f := Nat.not_le_of_lt h
  have hof : ∀ n, 128 ≤ n → n < 256 → 128 ≤ (UInt8.ofNat n).toNat := fun n hle hlt => by
    rwa [UInt8.toNat_ofNat_of_lt' hlt]
  simp only [String.utf8EncodeChar, if_neg hv] at hb
  split at hb
  · -- Two bytes.
    simp only [List.mem_cons, List.not_mem_nil, or_false] at hb
    rcases hb with rfl | rfl <;> exact hof _ (by omega) (by omega)
  split at hb
  · -- Three bytes.
    simp only [List.mem_cons, List.not_mem_nil, or_false] at hb
    rcases hb with rfl | rfl | rfl <;> exact hof _ (by omega) (by omega)
  · -- Four bytes.
    simp only [List.mem_cons, List.not_mem_nil, or_false] at hb
    rcases hb with rfl | rfl | rfl | rfl <;> exact hof _ (by omega) (by omega)

theorem bytesBefore_cons_succ (c : Char) (cs : List Char) (i : Nat) :
    bytesBefore (c :: cs) (i + 1) = c.utf8Size + bytesBefore cs i := by
  rw [bytesBefore, List.take_succ_cons, String.utf8Len_cons, Nat.add_comm, bytesBefore]

theorem exists_char_of_byte {cs : List Char} {i : Nat} {b : UInt8} (h : (utf8 cs)[i]? = some b) :
    ∃ j c, cs[j]? = some c ∧ b ∈ String.utf8EncodeChar c ∧ bytesBefore cs j ≤ i ∧
      i < bytesBefore cs (j + 1) := by
  induction cs generalizing i with
  | nil => cases h
  | cons c cs ih =>
    rw [utf8_cons] at h
    rcases Nat.lt_or_ge i (String.utf8EncodeChar c).length with hi | hi
    · rw [List.getElem?_append_left hi] at h
      rw [String.length_utf8EncodeChar] at hi
      refine ⟨0, c, rfl, List.mem_of_getElem? h, Nat.zero_le i, ?_⟩
      rw [bytesBefore_cons_succ, bytesBefore_zero, Nat.add_zero]
      exact hi
    · rw [List.getElem?_append_right hi] at h
      rw [String.length_utf8EncodeChar] at hi h
      obtain ⟨j, d, hd, hb, hle, hlt⟩ := ih h
      refine ⟨j + 1, d, hd, hb, ?_, ?_⟩
      · rw [bytesBefore_cons_succ]
        omega
      · rw [bytesBefore_cons_succ]
        omega

/-! ## Classes of bytes -/

def AsciiOnly (f : Char → Bool) : Prop :=
  ∀ c, f c = true → c.toNat < 128

theorem asciiOnly_isNameChar : AsciiOnly isNameChar := by
  intro c h
  simp only [isNameChar, isAsciiAlphanumeric, Bool.or_eq_true, Bool.and_eq_true,
    decide_eq_true_eq, beq_iff_eq] at h
  rcases h with h | rfl
  · omega
  · decide

theorem asciiOnly_isSpace : AsciiOnly isSpace := by
  intro c h
  simp only [isSpace, Bool.or_eq_true, beq_iff_eq] at h
  omega

theorem asciiOnly_isQuote : AsciiOnly isQuote := by
  intro c h
  simp only [isQuote, Bool.or_eq_true, beq_iff_eq] at h
  rcases h with rfl | rfl <;> decide

theorem toNat_ofUInt8 (b : UInt8) : (Char.ofUInt8 b).toNat = b.toNat :=
  UInt8.toNat_toUInt32 b

theorem ofUInt8_ofNat {c : Char} (h : c.toNat < 128) :
    Char.ofUInt8 (UInt8.ofNat c.toNat) = c := by
  refine Char.toNat_inj.mp ?_
  rw [toNat_ofUInt8, UInt8.toNat_ofNat_of_lt' (Nat.lt_trans h (by decide))]

/-- Any byte of a character tells whether the character is in a class of ASCII. -/
theorem ofUInt8_agrees {f : Char → Bool} (hf : AsciiOnly f) {c : Char} {b : UInt8}
    (hb : b ∈ String.utf8EncodeChar c) : f (Char.ofUInt8 b) = f c := by
  rcases Nat.lt_or_ge c.toNat 128 with hc | hc
  · rw [utf8EncodeChar_of_ascii hc, List.mem_singleton] at hb
    rw [hb, ofUInt8_ofNat hc]
  · have hbyte : f (Char.ofUInt8 b) = false := Bool.eq_false_iff.mpr fun h => by
      have hlt := hf _ h
      have hle := le_of_mem_utf8EncodeChar hc hb
      rw [toNat_ofUInt8] at hlt
      omega
    have hchar : f c = false := Bool.eq_false_iff.mpr fun h => Nat.not_lt_of_le hc (hf c h)
    rw [hbyte, hchar]

/-- The bytes in front that are in a class of ASCII are those of the characters in front. -/
theorem takeWhile_utf8 {f : Char → Bool} (hf : AsciiOnly f) (cs : List Char) :
    (utf8 cs).takeWhile (fun b => f (Char.ofUInt8 b)) = utf8 (cs.takeWhile f) := by
  induction cs with
  | nil => rfl
  | cons c cs ih =>
    rw [utf8_cons]
    cases hc : f c with
    | true =>
      have hall : ∀ b ∈ String.utf8EncodeChar c, f (Char.ofUInt8 b) = true := fun b hb => by
        rw [ofUInt8_agrees hf hb, hc]
      rw [List.takeWhile_append_of_pos hall, ih, List.takeWhile_cons_of_pos hc, utf8_cons]
    | false =>
      obtain ⟨b, bs, hbs⟩ := exists_utf8EncodeChar c
      have hb : f (Char.ofUInt8 b) = false := by
        rw [ofUInt8_agrees hf (hbs ▸ List.mem_cons_self), hc]
      rw [hbs, List.cons_append, List.takeWhile_cons_of_neg (by simp [hb]),
        List.takeWhile_cons_of_neg (by simp [hc])]
      rfl

/-! ## One token -/

/-- The place of the first `q` that no backslash protects, counted in bytes from `n`; a backslash
in front of the text protects its first character when `escaped`. -/
def closing? (q : Option Char) : (escaped : Bool) → Nat → List Char → Option Nat
  | _, _, [] => none
  | true, n, c :: r => closing? q false (n + c.utf8Size) r
  | false, n, c :: r =>
    if c = '\\' then closing? q true (n + c.utf8Size) r
    else if some c = q then some n
    else closing? q false (n + c.utf8Size) r

/-- The size of the literal in front of a text, which is all of it when nothing closes it. -/
def literalSize? (bs : List UInt8) : Option Nat := do
  let whole ← decode? bs
  let inner ← decode? (bs.drop 1)
  pure ((closing? whole.head? false 0 inner).elim bs.length (1 + · + 1))

/-- The size of the mark in front of a text. -/
def markSize (cs : List Char) : Nat :=
  if [':', ':'].isPrefixOf cs then 2
  else if ['.', '.', '.'].isPrefixOf cs then 3
  else cs.head?.elim 1 Char.utf8Size

/-- The kind and the size of the token in front of a text whose first byte is `b`. -/
def size? (b : UInt8) (bs : List UInt8) : Option (TokenKind × Nat) :=
  if isNameChar (Char.ofUInt8 b) then
    some (.word, (bs.takeWhile fun d => isNameChar (Char.ofUInt8 d)).length)
  else if isQuote (Char.ofUInt8 b) then (literalSize? bs).map (.literal, ·)
  else (decode? bs).map fun cs => (.mark, markSize cs)

theorem markSize_pos (cs : List Char) : 0 < markSize cs := by
  unfold markSize
  split
  · decide
  split
  · decide
  cases cs with
  | nil => decide
  | cons c r => exact c.utf8Size_pos

theorem size?_pos {b : UInt8} {bs : List UInt8} {kind : TokenKind} {n : Nat}
    (h : size? b (b :: bs) = some (kind, n)) : 0 < n := by
  unfold size? at h
  split at h
  · next hb =>
    rw [List.takeWhile_cons, if_pos hb] at h
    cases h
    exact Nat.succ_pos _
  split at h
  · obtain ⟨m, hm, hn⟩ := Option.map_eq_some_iff.mp h
    simp only [literalSize?, Option.bind_eq_bind, Option.bind_eq_some_iff, Option.pure_def,
      Option.some.injEq] at hm
    obtain ⟨whole, -, inner, -, rfl⟩ := hm
    cases hn
    cases closing? whole.head? false 0 inner with
    | none => exact Nat.succ_pos _
    | some k => exact Nat.succ_pos _
  · obtain ⟨cs, -, hn⟩ := Option.map_eq_some_iff.mp h
    cases hn
    exact markSize_pos cs

theorem closing?_eq {q : Char} (hq : isQuote q = true) (n : Nat) (cs : List Char) :
    (closing? (some q) false n cs).elim (n + String.utf8Len cs) (· + 1) =
      n + String.utf8Len (literalRest q cs).1 := by
  have hsize : q.utf8Size = 1 := utf8Size_of_ascii (asciiOnly_isQuote q hq)
  have hback : q ≠ '\\' := by rintro rfl; revert hq; decide
  fun_induction literalRest q cs generalizing n with
  | case1 => rfl
  | case2 c r inner rest heq ih =>
    rw [heq] at ih
    have hskip : closing? (some q) false n ('\\' :: c :: r) =
        closing? (some q) false (n + '\\'.utf8Size + c.utf8Size) r := by
      simp only [closing?, if_pos]
    have hlen : n + String.utf8Len ('\\' :: c :: r) =
        n + '\\'.utf8Size + c.utf8Size + String.utf8Len r := by
      simp only [String.utf8Len_cons]
      omega
    rw [hskip, hlen, ih]
    simp only [String.utf8Len_cons]
    omega
  | case3 r hno =>
    rw [closing?, if_neg hback, if_pos rfl]
    simp [hsize]
  | case4 c r hno hc inner rest heq ih =>
    rw [heq] at ih
    by_cases hc' : c = '\\'
    · -- A backslash with nothing behind it ends the text.
      subst hc'
      cases r with
      | nil => cases heq; rfl
      | cons d r => exact absurd rfl (hno d r rfl)
    · have hstep : closing? (some q) false n (c :: r) =
          closing? (some q) false (n + c.utf8Size) r := by
        rw [closing?, if_neg hc', if_neg (by simpa using hc)]
      have hlen : n + String.utf8Len (c :: r) = n + c.utf8Size + String.utf8Len r := by
        rw [String.utf8Len_cons]
        omega
      rw [hstep, hlen, ih]
      simp only [String.utf8Len_cons]
      omega

theorem literalSize?_utf8 {q : Char} (hq : isQuote q = true) (r : List Char) :
    literalSize? (utf8 (q :: r)) = some (String.utf8Len (q :: (literalRest q r).1)) := by
  have hascii := asciiOnly_isQuote q hq
  have hdrop : (utf8 (q :: r)).drop 1 = utf8 r := by
    rw [utf8_cons, utf8EncodeChar_of_ascii hascii]
    rfl
  have hclose := closing?_eq hq 0 r
  rw [Nat.zero_add, Nat.zero_add] at hclose
  have hall : literalSize? (utf8 (q :: r)) =
      some ((closing? (some q) false 0 r).elim (String.utf8Len (q :: r)) (1 + · + 1)) := by
    rw [literalSize?, hdrop, decode?_utf8, decode?_utf8, length_utf8]
    rfl
  rw [hall, String.utf8Len_cons, String.utf8Len_cons, utf8Size_of_ascii hascii, ← hclose]
  cases closing? (some q) false 0 r with
  | none => rfl
  | some k => simp [Nat.add_comm]

/-- The size in bytes of the token in front of a text. -/
theorem size?_utf8 {c : Char} {b : UInt8} {bs : List UInt8} (hb : String.utf8EncodeChar c = b :: bs)
    (r : List Char) :
    size? b (utf8 (c :: r)) = some ((lexeme c r).1, String.utf8Len (lexeme c r).2.1) := by
  have hmem : b ∈ String.utf8EncodeChar c := hb ▸ List.mem_cons_self
  rw [size?, ofUInt8_agrees asciiOnly_isNameChar hmem, ofUInt8_agrees asciiOnly_isQuote hmem,
    takeWhile_utf8 asciiOnly_isNameChar, length_utf8]
  unfold lexeme
  by_cases hname : isNameChar c = true
  · rw [if_pos hname, if_pos hname, List.takeWhile_cons_of_pos hname]
  rw [if_neg hname, if_neg hname]
  by_cases hquote : isQuote c = true
  · rw [if_pos hquote, if_pos hquote, literalSize?_utf8 hquote]
    rfl
  rw [if_neg hquote, if_neg hquote, decode?_utf8, Option.map_some]
  split
  · rfl
  · rfl
  · next hcolon hdots =>
    have hcolons : ¬ [':', ':'].isPrefixOf (c :: r) = true := fun h => by
      obtain ⟨r', hr⟩ := List.isPrefixOf_iff_prefix.mp h
      exact hcolon r' (List.cons.inj hr).1.symm (List.cons.inj hr).2.symm
    have hellipsis : ¬ ['.', '.', '.'].isPrefixOf (c :: r) = true := fun h => by
      obtain ⟨r', hr⟩ := List.isPrefixOf_iff_prefix.mp h
      exact hdots r' (List.cons.inj hr).1.symm (List.cons.inj hr).2.symm
    rw [markSize, if_neg hcolons, if_neg hellipsis]
    simp

/-! ## The loop -/

/-- The spans that the loop finds in bytes with `n` others in front; `none` when a cut fails. -/
def scan? (n : Nat) (bs : List UInt8) : Option (List Span) :=
  match bs with
  | [] => some []
  | b :: r =>
    if isSpace (Char.ofUInt8 b) then scan? (n + 1) r
    else
      match _h : size? b (b :: r) with
      | none => none
      | some (kind, size) =>
        match decode? ((b :: r).take size), scan? (n + size) ((b :: r).drop size) with
        | some text, some later => some (⟨kind, String.ofList text, n, n + size⟩ :: later)
        | _, _ => none
termination_by bs.length
decreasing_by
  · exact Nat.lt_succ_self _
  · have := size?_pos _h
    simp only [List.length_drop, List.length_cons]
    omega

/-- The spans of a text, found by a loop over its bytes. -/
def tokenize? (s : String) : Option (List Span) :=
  scan? 0 (bytes s)

@[simp] theorem scan?_nil (n : Nat) : scan? n [] = some [] := by
  rw [scan?]

theorem scan?_spaces (n : Nat) (cs : List Char) :
    scan? n (utf8 cs) =
      scan? (n + String.utf8Len (cs.takeWhile isSpace)) (utf8 (cs.dropWhile isSpace)) := by
  induction cs generalizing n with
  | nil => rfl
  | cons c cs ih =>
    cases hc : isSpace c with
    | true =>
      have hascii := asciiOnly_isSpace c hc
      rw [List.takeWhile_cons_of_pos hc, List.dropWhile_cons_of_pos hc, utf8_cons,
        utf8EncodeChar_of_ascii hascii, List.singleton_append, scan?, ofUInt8_ofNat hascii,
        if_pos hc, ih, String.utf8Len_cons, utf8Size_of_ascii hascii, Nat.add_assoc,
        Nat.add_comm 1]
    | false =>
      rw [List.takeWhile_cons_of_neg (by simp [hc]), List.dropWhile_cons_of_neg (by simp [hc])]
      rfl

theorem scan?_lexeme {c : Char} (hc : isSpace c = false) (n : Nat) (r : List Char) :
    scan? n (utf8 (c :: r)) =
      (scan? (n + String.utf8Len (lexeme c r).2.1) (utf8 (lexeme c r).2.2)).map
        (⟨(lexeme c r).1, String.ofList (lexeme c r).2.1, n,
          n + String.utf8Len (lexeme c r).2.1⟩ :: ·) := by
  obtain ⟨b, bs, hbs⟩ := exists_utf8EncodeChar c
  have hspace : isSpace (Char.ofUInt8 b) = false := by
    rw [ofUInt8_agrees asciiOnly_isSpace (hbs ▸ List.mem_cons_self), hc]
  have hcut : utf8 (c :: r) = utf8 (lexeme c r).2.1 ++ utf8 (lexeme c r).2.2 := by
    rw [← utf8_append, append_lexeme]
  have hsize := size?_utf8 hbs r
  have htake : (utf8 (c :: r)).take (String.utf8Len (lexeme c r).2.1) = utf8 (lexeme c r).2.1 := by
    rw [hcut, ← length_utf8, List.take_left]
  have hdrop : (utf8 (c :: r)).drop (String.utf8Len (lexeme c r).2.1) = utf8 (lexeme c r).2.2 := by
    rw [hcut, ← length_utf8, List.drop_left]
  rw [utf8_cons, hbs, List.cons_append] at hsize htake hdrop ⊢
  rw [scan?, hspace, if_neg (by decide)]
  split
  · next h => rw [hsize] at h; cases h
  · next kind size h =>
    rw [hsize] at h
    cases h
    rw [htake, hdrop, decode?_utf8]
    cases scan? (n + String.utf8Len (lexeme c r).2.1) (utf8 (lexeme c r).2.2) <;> rfl

/-! ## Spans -/

/-- The loop finds the spans, whatever stands in front of the text. -/
theorem scan?_utf8 (front cs : List Char) :
    scan? (String.utf8Len front) (utf8 cs) = some (spansBehind front cs) := by
  fun_induction tokens cs generalizing front with
  | case1 cs hn =>
    have hnil : cs.dropWhile isSpace = [] :=
      List.dropWhile_eq_nil_iff.mpr (isSpace_of_next?_none hn)
    rw [spansBehind_of_next?_none hn, scan?_spaces, hnil]
    exact scan?_nil _
  | case2 cs t rest hn ih =>
    rw [spansBehind_of_next? hn]
    obtain ⟨c, r, hd, rfl, rfl⟩ := exists_lexeme_of_next? hn
    have hc := List.head?_dropWhile_not isSpace cs
    rw [hd] at hc
    rw [scan?_spaces, hd, scan?_lexeme hc, String.toList_ofList, ← String.utf8Len_append,
      ← String.utf8Len_append, ih, Option.map_some]

/-- There is room for a space in front of the first token when the text begins with one. -/
theorem utf8Len_lt_iff (front cs : List Char) :
    String.utf8Len front < String.utf8Len (front ++ cs.takeWhile isSpace) ↔
      cs.head?.any isSpace = true := by
  rw [String.utf8Len_append]
  cases cs with
  | nil => simp
  | cons c cs =>
    rw [List.head?_cons, Option.any_some]
    cases hc : isSpace c with
    | true =>
      have hpos := c.utf8Size_pos
      rw [List.takeWhile_cons_of_pos hc, String.utf8Len_cons]
      exact ⟨fun _ => rfl, fun _ => by omega⟩
    | false =>
      rw [List.takeWhile_cons_of_neg (by simp [hc])]
      simp

theorem zipWith_spansBehind (front cs : List Char) :
    List.zipWith Span.token
        (String.utf8Len front :: (spansBehind front cs).map (·.stop)) (spansBehind front cs) =
      tokens cs := by
  fun_induction tokens cs generalizing front with
  | case1 cs hn => rw [spansBehind_of_next?_none hn, List.zipWith_nil_right]
  | case2 cs t rest hn ih =>
    rw [spansBehind_of_next? hn, List.map_cons, List.zipWith_cons_cons, ih]
    obtain ⟨c, r, -, rfl, -⟩ := exists_lexeme_of_next? hn
    congr 1
    rw [Span.token, Bool.eq_iff_iff.mpr (decide_eq_true_iff.trans (utf8Len_lt_iff front cs))]

theorem isSpace_of_gap {s : String} {i : Nat} {b : UInt8} (hb : (bytes s)[i]? = some b)
    (hgap : ∀ p ∈ spans s, i < p.start ∨ p.stop ≤ i) : isSpace (Char.ofUInt8 b) = true := by
  rw [bytes_eq] at hb
  obtain ⟨j, c, hc, hmem, hle, hlt⟩ := exists_char_of_byte hb
  rw [ofUInt8_agrees asciiOnly_isSpace hmem]
  refine isSpace_of_uncovered (n := 0) hc fun p hp => Bool.eq_false_iff.mpr fun hcover => ?_
  obtain ⟨hstart, hstop⟩ := Placed.covers_iff.mp hcover
  rw [Nat.zero_add] at hstart hstop
  have hspan : p.span s.toList ∈ spans s := List.mem_map_of_mem hp
  have h1 := bytesBefore_mono hstart s.toList
  have h2 := bytesBefore_mono (Nat.succ_le_of_lt hstop) s.toList
  rcases hgap _ hspan with h | h
  · exact absurd (Nat.le_trans h1 hle) (Nat.not_le_of_lt h)
  · exact absurd (Nat.lt_of_lt_of_le hlt h2) (Nat.not_lt_of_le h)

theorem tokenize?_eq (s : String) : tokenize? s = some (spans s) := by
  rw [tokenize?, bytes_eq]
  exact scan?_utf8 [] s.toList

/-- What the spans of a text are: nothing of the text is lost in them, and reading can go on behind
any of them. -/
structure Lossless (s : String) : Prop where
  /-- The loop over the bytes cuts no character and finds the spans. -/
  found : tokenize? s = some (spans s)
  /-- The spans tell the tokens, also where spaces stand in front of them. -/
  told : List.zipWith Span.token (0 :: (spans s).map (·.stop)) (spans s) = tokens s.toList
  nonempty : ∀ p ∈ spans s, p.start < p.stop
  /-- A span begins and ends between characters of the text, or at its ends. -/
  boundary : ∀ p ∈ spans s,
    String.Pos.Raw.IsValid s ⟨p.start⟩ ∧ String.Pos.Raw.IsValid s ⟨p.stop⟩
  text : ∀ p ∈ spans s, String.Pos.Raw.extract s ⟨p.start⟩ ⟨p.stop⟩ = p.text
  ordered : (spans s).Pairwise fun p q => p.stop ≤ q.start
  /-- A byte in no span is a space. -/
  gaps : ∀ (i : Nat) (b : UInt8), (bytes s)[i]? = some b →
    (∀ p ∈ spans s, i < p.start ∨ p.stop ≤ i) → isSpace (Char.ofUInt8 b) = true
  /-- The text behind a span has the remaining spans, shifted by the place where it begins. -/
  restart : ∀ (n : Nat) (p : Span), (spans s)[n]? = some p →
    ∃ later, tokenize? (textFrom s p.stop) = some later ∧
      later.map (Span.shift p.stop) = (spans s).drop (n + 1)
  /-- It is what a reader keeps behind that token, and reads as the remaining tokens. -/
  requeued : ∀ (n : Nat) (p : Span), (spans s)[n]? = some p →
    (textFrom s p.stop).toList = afterTokens (n + 1) s.toList ∧
      tokens (textFrom s p.stop).toList = (tokens s.toList).drop (n + 1)

/-- Reading a text as tokens is lossless and can start again behind any token. -/
theorem tokens_lossless (s : String) : Lossless s where
  found := tokenize?_eq s
  told := zipWith_spansBehind [] s.toList
  nonempty p hp := by
    obtain ⟨n, hn⟩ := List.mem_iff_getElem?.mp hp
    obtain ⟨front, rest, h⟩ := exists_cuts hn
    have hpos := Nat.pos_of_ne_zero (mt String.utf8Len_eq_zero.mp h.nonempty)
    rw [h.start, h.stop]
    omega
  boundary p hp := by
    obtain ⟨q, -, rfl⟩ := List.mem_map.mp hp
    exact ⟨isValid_bytesBefore s q.start, isValid_bytesBefore s q.stop⟩
  text p hp := by
    obtain ⟨n, hn⟩ := List.mem_iff_getElem?.mp hp
    obtain ⟨front, rest, h⟩ := exists_cuts hn
    exact h.extract
  ordered := by
    rw [spans_eq, List.pairwise_map]
    exact (pairwise_placed 0 s.toList).imp fun h => bytesBefore_mono h s.toList
  gaps _ _ := isSpace_of_gap
  restart n p hp := by
    obtain ⟨front, rest, h⟩ := exists_cuts hp
    exact ⟨spans (textFrom s p.stop), tokenize?_eq _, h.spans_textFrom⟩
  requeued n p hp := by
    obtain ⟨front, rest, h⟩ := exists_cuts hp
    have hrest : (textFrom s p.stop).toList = afterTokens (n + 1) s.toList := by
      rw [h.textFrom_stop, String.toList_ofList, h.behind]
    exact ⟨hrest, by rw [hrest, tokens_afterTokens]⟩

end Token

end HeaderOutline
