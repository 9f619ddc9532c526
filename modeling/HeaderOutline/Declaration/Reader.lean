import HeaderOutline.Token
/-!
# Readers

A reader takes a value from the front of a list of tokens and gives back the rest, or refuses. This
module holds the readers of single tokens, the words with a fixed meaning, and lists whose items are
parted by commas.

Results: what a reader leaves is a proper end of what it was given (`Advances`);
`advances_commaList` carries this from the items to the list.
-/
namespace HeaderOutline.Declaration

/-- Takes a value from the front of the tokens. -/
abbrev Reader (α : Type) := List Token → Option (α × List Token)

/-- What the reader leaves is a proper end of what it was given. -/
def Advances {α : Type} (p : Reader α) : Prop :=
  ∀ ⦃ts r : List Token⦄ ⦃a : α⦄, p ts = some (a, r) → r <:+ ts ∧ r.length < ts.length

/-! ## Words with a fixed meaning -/

/-- The words of which built-in types are made. Mirrors `NATIVE_TYPES`. -/
def nativeWords : List String :=
  ["unsigned", "int", "short", "long", "double", "float", "char", "wchar_t", "bool", "signed",
    "void"]

/-- The words that neither begin a type nor name anything. Mirrors `RESERVED`. -/
def reservedWords : List String :=
  ["const", "volatile", "static", "virtual", "inline", "explicit", "constexpr", "friend", "typedef",
   "using", "return", "template", "typename", "class", "struct", "union", "enum", "namespace",
   "operator", "public", "protected", "private", "new", "delete", "extern", "throw", "if", "else",
   "while", "for", "do", "switch", "case", "goto", "sizeof", "default"]

def isNative (word : String) : Bool :=
  nativeWords.contains word

def isReserved (word : String) : Bool :=
  reservedWords.contains word

/-! ## Single tokens -/

/-- What follows a first token with the given text. Mirrors `eat`. -/
def skip? (text : String) : List Token → Option (List Token)
  | [] => none
  | t :: ts => if t.text = text then some ts else none

theorem skip?_eq_some {text : String} {ts r : List Token} :
    skip? text ts = some r ↔ ∃ t, ts = t :: r ∧ t.text = text := by
  cases ts with
  | nil => simp [skip?]
  | cons t ts =>
    simp only [skip?, List.cons.injEq]
    constructor
    · intro h
      split at h
      · next ht => exact ⟨t, ⟨rfl, Option.some.inj h⟩, ht⟩
      · cases h
    · rintro ⟨_, ⟨rfl, rfl⟩, ht⟩
      rw [if_pos ht]

theorem suffix_of_skip? {text : String} {ts r : List Token} (h : skip? text ts = some r) :
    r <:+ ts ∧ r.length < ts.length := by
  obtain ⟨t, rfl, _⟩ := skip?_eq_some.mp h
  exact ⟨List.suffix_cons t r, by simp⟩

/-- What is left when a first token with the given text is dropped; all of it when there is none. -/
def skipOptional (text : String) (ts : List Token) : List Token :=
  (skip? text ts).getD ts

theorem suffix_skipOptional (text : String) (ts : List Token) : skipOptional text ts <:+ ts := by
  unfold skipOptional
  cases h : skip? text ts with
  | none => exact List.suffix_refl ts
  | some r => exact (suffix_of_skip? h).1

/-- Mirrors `peek_is`. -/
def startsWith (text : String) (ts : List Token) : Bool :=
  (skip? text ts).isSome

/-- Mirrors `eat_ident`. -/
def name? : Reader String
  | [] => none
  | t :: ts => if t.isName then some (t.text, ts) else none

theorem advances_name? : Advances name? := by
  intro ts r a h
  cases ts with
  | nil => exact absurd h (by simp [name?])
  | cons t ts =>
    simp only [name?] at h
    split at h
    · simp only [Option.some.injEq, Prod.mk.injEq] at h
      obtain ⟨-, rfl⟩ := h
      exact ⟨List.suffix_cons t _, by simp⟩
    · exact absurd h (by simp)

/-- A first token that is a name and no reserved word. -/
def freeName? (ts : List Token) : Option (String × List Token) :=
  (name? ts).filter fun p => !isReserved p.1

theorem advances_freeName? : Advances freeName? := by
  intro ts r a h
  exact advances_name? (Option.filter_eq_some_iff.mp h).1

/-! ## Lists -/

/-- Items parted by commas, up to and with a token `close`. There is at least one item. The rest of
the tokens grows shorter with every item, as `advances_commaList` shows, so the test on the length
always holds. -/
def commaList {α : Type} (item : Reader α) (close : String) (ts : List Token) :
    Option (List α × List Token) :=
  match item ts with
  | none => none
  | some (a, behind) =>
    match skip? "," behind with
    | some rest =>
      if rest.length < ts.length then
        (commaList item close rest).map fun (as, r) => (a :: as, r)
      else none
    | none => (skip? close behind).map fun r => ([a], r)
termination_by ts.length

theorem advances_commaList {α : Type} {item : Reader α} (hi : Advances item) (close : String) :
    Advances (commaList item close) := by
  intro ts r as h
  fun_induction commaList item close ts generalizing as with
  | case1 => cases h
  | case2 ts a behind hitem rest hskip hlt ih =>
    rw [Option.map_eq_some_iff] at h
    obtain ⟨⟨as', r'⟩, h, heq⟩ := h
    simp only [Prod.mk.injEq] at heq
    obtain ⟨-, rfl⟩ := heq
    have h1 := hi hitem
    have h2 := suffix_of_skip? hskip
    have h3 := ih h
    exact ⟨h3.1.trans (h2.1.trans h1.1), by omega⟩
  | case3 => cases h
  | case4 ts a behind hitem hskip =>
    rw [Option.map_eq_some_iff] at h
    obtain ⟨r', h, heq⟩ := h
    simp only [Prod.mk.injEq] at heq
    obtain ⟨-, rfl⟩ := heq
    have h1 := hi hitem
    have h2 := suffix_of_skip? h
    exact ⟨h2.1.trans h1.1, by omega⟩

end HeaderOutline.Declaration
