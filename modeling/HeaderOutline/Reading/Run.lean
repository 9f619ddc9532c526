import HeaderOutline.Reading.Step
/-!
# Whole readings

`parse` reads a header from its text. It reports the start of the parse, steps until no line is
pending, ends the last line, warns of scopes that are still open, and reports the end of the parse.
A closing brace without an open scope stops it at once.

The reading ends because every step makes the pending lines lighter.
-/
namespace HeaderOutline

namespace State

/-- What comes when no line is left. Mirrors the end of `run`. -/
def close (s : State) : List Entry :=
  let ended := match s.group with
    | some l => [s.callback (.lineEnd (String.ofList l.text))]
    | none => []
  let left := match s.scopes with
    | [] => []
    | f :: fs => [.note (.leftOpen (f :: fs).length f.kind)]
  ended ++ left ++ [s.callback .parseEnd]

/-- Steps until no line is pending. Mirrors `run`. -/
def run (s : State) : List Entry × Except UnbalancedBrace State :=
  match _hs : s.pending with
  | [] => (s.close, .ok s)
  | line :: later =>
    match _h : s.step line later with
    | (entries, .error e) => (entries, .error e)
    | (entries, .ok next) =>
      let (rest, result) := run next
      (entries ++ rest, result)
termination_by weight s.pending
decreasing_by
  rw [_hs]
  exact weight_step (by rw [_h])

end State

/-- What a finished reading tells of a header. -/
structure Summary where
  /-- Physical lines. -/
  lineCount : Nat
  /-- Constructs reported. -/
  constructs : Nat
  /-- Scopes still open at the end. -/
  unclosedScopes : Nat
  deriving DecidableEq, Repr

/-- A finished reading: its summary, its counts, and the lines with text. -/
structure Finished where
  summary : Summary
  tally : Tally
  linesRead : Nat
  deriving DecidableEq, Repr

/-- All that a reading puts out, and how it ended. -/
structure Reading where
  entries : List Entry
  result : Except UnbalancedBrace Finished

def Reading.callbacks (r : Reading) : List Callback :=
  r.entries.filterMap fun
    | .callback c => some c
    | .note _ => none

/-- Reads a header. Mirrors `parse_source`. -/
def parse (source : String) : Reading :=
  let lines := SourceLine.ofSource source.toList
  let start := State.start lines
  let (entries, result) := start.run
  let entries := start.callback .parseStart :: entries
  match result with
  | .error e => ⟨entries, .error e⟩
  | .ok s =>
    let t := s.tally
    let summary := ⟨(Text.lines source.toList).length, t.constructs, s.scopes.length⟩
    ⟨entries ++ [.note (.finished t.constructs t.merges t.discarded)],
      .ok ⟨summary, t, lines.length⟩⟩

end HeaderOutline
