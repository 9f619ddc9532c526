/-!
# Access levels and class keys

The words that set the access of class members, and the words that introduce a class. Members that
no label precedes are private in a class and public in a struct.

Results: `AccessLevel.ofKeyword?_eq_some` and `ClassKey.ofKeyword?_eq_some`, a keyword reads as the
value it spells and nothing else does.
-/
namespace HeaderOutline

/-- Who may use a member. -/
inductive AccessLevel where
  | isPublic
  | isProtected
  | isPrivate
  deriving DecidableEq, Repr

namespace AccessLevel

def keyword : AccessLevel → String
  | isPublic => "public"
  | isProtected => "protected"
  | isPrivate => "private"

def ofKeyword? (word : String) : Option AccessLevel :=
  if word = "public" then some isPublic
  else if word = "protected" then some isProtected
  else if word = "private" then some isPrivate
  else none

theorem ofKeyword?_eq_some {word : String} {level : AccessLevel} :
    ofKeyword? word = some level ↔ word = level.keyword := by
  constructor
  · intro h
    unfold ofKeyword? at h
    split at h
    · cases h; assumption
    · split at h
      · cases h; assumption
      · split at h
        · cases h; assumption
        · exact absurd h (by simp)
  · rintro rfl
    cases level <;> decide

end AccessLevel

/-- The word that introduced a class. -/
inductive ClassKey where
  | isClass
  | isStruct
  deriving DecidableEq, Repr

namespace ClassKey

def keyword : ClassKey → String
  | isClass => "class"
  | isStruct => "struct"

def ofKeyword? (word : String) : Option ClassKey :=
  if word = "class" then some isClass
  else if word = "struct" then some isStruct
  else none

theorem ofKeyword?_eq_some {word : String} {key : ClassKey} :
    ofKeyword? word = some key ↔ word = key.keyword := by
  constructor
  · intro h
    unfold ofKeyword? at h
    split at h
    · cases h; assumption
    · split at h
      · cases h; assumption
      · exact absurd h (by simp)
  · rintro rfl
    cases key <;> decide

/-- The access of members before any label. -/
def defaultAccess : ClassKey → AccessLevel
  | isClass => .isPrivate
  | isStruct => .isPublic

end ClassKey

end HeaderOutline
