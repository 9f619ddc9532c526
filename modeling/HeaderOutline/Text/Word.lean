import HeaderOutline.Text.Property
/-!
# Word characters

Three notions of a character that can stand in a word:

* `isNameChar`: ASCII letters, digits and the underscore, the characters of a word token.
* `isWordChar`: the word characters of text patterns, that is letters, combining marks, decimal
  digits, connector punctuation and the two joiners. A word boundary lies between one of these and
  anything else.
* `isAlphanumeric`: letters and numbers of any kind.

The two beyond ASCII belong to different editions of Unicode: letters and numbers are those of
Unicode 17, while text patterns know the characters of Unicode 16 only. So a letter that came with
Unicode 17 is alphanumeric and yet no word character.

The second part reads words, marks and names from the front of a text.

On ASCII the last two notions differ only in the underscore.

Results: what is read and what is left make up the text (`append_of_after?` and its like).
-/
namespace HeaderOutline.Text

def isAsciiAlphanumeric (c : Char) : Bool :=
  let n := c.toNat
  (0x30 ≤ n && n ≤ 0x39) || (0x41 ≤ n && n ≤ 0x5A) || (0x61 ≤ n && n ≤ 0x7A)

/-- An ASCII letter or an underscore: what a name may begin with. -/
def isNameStart (c : Char) : Bool :=
  let n := c.toNat
  (0x41 ≤ n && n ≤ 0x5A) || (0x61 ≤ n && n ≤ 0x7A) || n == 0x5F

/-- An ASCII letter, digit or underscore. -/
def isNameChar (c : Char) : Bool :=
  isAsciiAlphanumeric c || c == '_'

/-- What all characters of a list satisfy is decided along the list. The instance that would be
found else runs through every character there is. -/
instance (priority := 1100) decidableForallMemChar (p : Char → Prop) [DecidablePred p]
    (cs : List Char) : Decidable (∀ c ∈ cs, p c) :=
  List.decidableBAll p cs

/-- A letter or number of any script. -/
def isAlphanumeric (c : Char) : Bool :=
  if c.toNat < 0x80 then isAsciiAlphanumeric c
  else Property.inside Property.alphabetic c.toNat || Property.inside Property.number c.toNat

/-- A word character of text patterns, which do not know the characters of age 17. -/
def isWordChar (c : Char) : Bool :=
  let n := c.toNat
  if n < 0x80 then isNameChar c
  else !Property.inside Property.age17 n &&
    (Property.inside Property.alphabetic n || Property.inside Property.mark n ||
      Property.inside Property.decimal n || Property.inside Property.connector n ||
      n == 0x200C || n == 0x200D)

def startsWord (cs : List Char) : Bool :=
  cs.head?.any isWordChar

/-- What follows `word` at the start of a text. -/
def after? (word : String) (cs : List Char) : Option (List Char) :=
  if word.toList.isPrefixOf cs then some (cs.drop word.toList.length) else none

/-- What follows `word` at the start of a text, provided the word ends there. -/
def afterWord? (word : String) (cs : List Char) : Option (List Char) :=
  (after? word cs).filter fun r => !startsWord r

theorem append_of_after? {word : String} {cs r : List Char} (h : after? word cs = some r) :
    word.toList ++ r = cs := by
  unfold after? at h
  split at h
  · next hp =>
    obtain ⟨t, rfl⟩ := List.isPrefixOf_iff_prefix.mp hp
    simp at h
    rw [h]
  · exact absurd h (by simp)

theorem append_of_afterWord? {word : String} {cs r : List Char} (h : afterWord? word cs = some r) :
    word.toList ++ r = cs :=
  append_of_after? (Option.filter_eq_some_iff.mp h).1

/-- What follows a character at the start of a text. -/
def afterMark? (mark : Char) : List Char → Option (List Char)
  | [] => none
  | c :: r => if c = mark then some r else none

theorem append_of_afterMark? {mark : Char} {cs r : List Char} (h : afterMark? mark cs = some r) :
    mark :: r = cs := by
  cases cs with
  | nil => cases h
  | cons c cs =>
    simp only [afterMark?] at h
    split at h
    · cases h; simp_all
    · cases h

/-- A name at the start of a text, a letter and then word characters, and what follows it. -/
def name? : List Char → Option (List Char × List Char)
  | [] => none
  | c :: r =>
    if isNameStart c then some (c :: r.takeWhile isWordChar, r.dropWhile isWordChar) else none

theorem append_of_name? {cs w r : List Char} (h : name? cs = some (w, r)) : w ++ r = cs := by
  cases cs with
  | nil => exact absurd h (by simp [name?])
  | cons c cs =>
    simp only [name?] at h
    split at h
    · simp only [Option.some.injEq, Prod.mk.injEq] at h
      obtain ⟨rfl, rfl⟩ := h
      simp
    · exact absurd h (by simp)

/-! ## Lengths -/

theorem length_of_after? {word : String} {cs r : List Char} (h : after? word cs = some r) :
    r.length + word.toList.length = cs.length := by
  rw [← append_of_after? h, List.length_append, Nat.add_comm]

theorem length_of_afterWord? {word : String} {cs r : List Char} (h : afterWord? word cs = some r) :
    r.length ≤ cs.length := by
  rw [← append_of_afterWord? h, List.length_append]
  omega

theorem length_of_afterMark? {mark : Char} {cs r : List Char} (h : afterMark? mark cs = some r) :
    r.length < cs.length := by
  rw [← append_of_afterMark? h]
  simp

theorem length_of_name? {cs w r : List Char} (h : name? cs = some (w, r)) :
    r.length < cs.length := by
  have hw : w ≠ [] := by
    cases cs with
    | nil => cases h
    | cons c cs =>
      simp only [name?] at h
      split at h
      · simp only [Option.some.injEq, Prod.mk.injEq] at h
        rw [← h.1]
        simp
      · cases h
  rw [← append_of_name? h, List.length_append]
  have := List.length_pos_iff.mpr hw
  omega

end HeaderOutline.Text
