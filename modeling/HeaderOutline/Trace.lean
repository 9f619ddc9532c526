import HeaderOutline.Reading.Run
/-!
# Traces

The log of a reading. Besides the notes of the reading itself, a tracer turns callbacks into records
that name the construct and its line.
-/
namespace HeaderOutline.Trace

structure Record where
  level : LogLevel
  message : String
  deriving DecidableEq, Repr

/-- A line number in front of a message, and dots behind it. -/
def atLine (line : Nat) (text : String) : String :=
  "[" ++ toString line ++ "] " ++ text ++ "..."

/-- What the tracer says of a callback. Mirrors `EventTracer`. -/
def message? (c : Callback) : Option String :=
  let parsing (what : String) := some (atLine c.line ("Parsing " ++ what))
  match c.event with
  | .parseStart => some "Parsing started..."
  | .parseEnd => some "Parsing finished..."
  | .define m => parsing ("macro " ++ m.name)
  | .nameSpace name => parsing ("namespace " ++ name)
  | .nameSpaceEnd name => some (atLine c.line ("Finished parsing namespace " ++ name))
  | .classHead h =>
    parsing ((h.template.map (·.render ++ " ")).getD "" ++ h.key.keyword ++ " " ++ h.name)
  | .classEnd name => some (atLine c.line ("Finished parsing class " ++ name))
  | .enum e => parsing ("enum " ++ e.name.getD "<anonymous>")
  | .functionDecl s | .functionDef s => parsing ("function " ++ s.render)
  | .constructorDecl name _ | .constructorDef name _ => parsing ("constructor " ++ name)
  | .destructorDecl name | .destructorDef name => parsing ("destructor " ++ name)
  | .lineStart _ | .lineEnd _ | .nameSpaceStart _ | .classStart _ => none

/-- The records of a reading; the tracer's only if it is installed. -/
def records (traced : Bool) (r : Reading) : List Record :=
  r.entries.filterMap fun
    | .note n => some ⟨n.level, n.message⟩
    | .callback c => if traced then (message? c).map (⟨.debug, ·⟩) else none

end HeaderOutline.Trace
