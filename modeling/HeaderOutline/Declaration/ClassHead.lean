import HeaderOutline.Declaration.Template
import HeaderOutline.Access
/-!
# Class heads

The head `template <...> class Name`, up to and with the name. It counts only when something follows
that leads to a body: a brace, a colon, `final`, an angle bracket, or the end of the fragment. So a
forward declaration is no head, but for one with template arguments behind its name.

Results: `advances_classHead?`.
-/
namespace HeaderOutline.Declaration

structure ClassHead where
  template : Option TemplateParams
  key : ClassKey
  name : String
  deriving DecidableEq, Repr

/-- What follows a class name when the class has a body. -/
def leadsToBody : List Token → Bool
  | [] => true
  | t :: _ => t.text == "\x7b" || t.text == ":" || t.text == "final" || t.text == "<"

/-- A first token that is a class key. -/
def classKey? : List Token → Option (ClassKey × List Token)
  | [] => none
  | t :: ts => (ClassKey.ofKeyword? t.text).map (·, ts)

/-- The head of a class. Mirrors `recognize_class`. -/
def classHead? (ts : List Token) : Option (ClassHead × List Token) := do
  let (template, ts) ← templateHead? ts
  let (key, ts) ← classKey? ts
  let (name, ts) ← name? ts
  if leadsToBody ts then some (⟨template, key, name⟩, ts) else none

theorem suffix_of_classKey? {ts r : List Token} {key : ClassKey}
    (h : classKey? ts = some (key, r)) : r <:+ ts := by
  cases ts with
  | nil => cases h
  | cons t ts =>
    simp only [classKey?, Option.map_eq_some_iff, Prod.mk.injEq] at h
    obtain ⟨k, -, -, rfl⟩ := h
    exact List.suffix_cons t _

theorem advances_classHead? : Advances classHead? := by
  intro ts r a h
  simp only [classHead?, Option.bind_eq_bind, Option.bind_eq_some_iff] at h
  obtain ⟨⟨template, r1⟩, h1, ⟨key, r2⟩, h2, ⟨name, r3⟩, h3, h4⟩ := h
  split at h4
  · simp only [Option.some.injEq, Prod.mk.injEq] at h4
    obtain ⟨-, rfl⟩ := h4
    have h1 := suffix_of_templateHead? h1
    have h3 := advances_name? h3
    have h2 := suffix_of_classKey? h2
    refine ⟨h3.1.trans (h2.trans h1), ?_⟩
    have := h1.length_le
    have := h2.length_le
    simp only at *
    omega
  · cases h4

end HeaderOutline.Declaration
