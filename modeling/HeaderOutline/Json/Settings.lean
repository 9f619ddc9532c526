import HeaderOutline.Config
import HeaderOutline.Json
import HeaderOutline.Metrics
/-!
# Settings and metrics in JSON

Both are records. A setting that is not given is the standard one; a count must be given.
-/
namespace HeaderOutline

namespace Config

def toJson (c : Config) : Json :=
  .object [("max_file_size", .natural c.maxFileSize), ("install_tracer", .bool c.installTracer)]

/-- The fields of settings. A list may stop early. -/
def fields? : Json → Option (List (String × Json))
  | .object fields => some fields
  | .list values =>
    if values.length ≤ 2 then some (["max_file_size", "install_tracer"].zip values) else none
  | _ => none

def ofJson? (j : Json) : Option Config := do
  let fields ← fields? j
  let maxFileSize ← Json.fieldOr standard.maxFileSize Json.natural? "max_file_size" fields
  let installTracer ← Json.fieldOr standard.installTracer Json.bool? "install_tracer" fields
  some ⟨maxFileSize, installTracer⟩

end Config

namespace Metrics

def keys : List String :=
  ["files_parsed", "lines_read", "fragments_dispatched", "constructs_recognized", "line_merges",
    "fragments_discarded", "total_parse_time"]

/-- The counts, without the time. -/
def toFields (m : Metrics) : List (String × Json) :=
  [("files_parsed", .natural m.filesParsed.toNat),
    ("lines_read", .natural m.linesRead.toNat),
    ("fragments_dispatched", .natural m.fragmentsDispatched.toNat),
    ("constructs_recognized", .natural m.constructsRecognized.toNat),
    ("line_merges", .natural m.lineMerges.toNat),
    ("fragments_discarded", .natural m.fragmentsDiscarded.toNat)]

/-- The metrics as a record. Of the time the low 64 bits of its whole microseconds are written. -/
def toJson (m : Metrics) : Json :=
  .object (m.toFields ++ [("total_parse_time", .natural (m.totalTime / 1000 % UInt64.size))])

def count? (j : Json) : Option UInt64 :=
  j.natural?.map (·.toUInt64)

def ofJson? (j : Json) : Option Metrics := do
  let fields ← j.record? keys
  let filesParsed ← Json.required count? "files_parsed" fields
  let linesRead ← Json.required count? "lines_read" fields
  let fragmentsDispatched ← Json.required count? "fragments_dispatched" fields
  let constructsRecognized ← Json.required count? "constructs_recognized" fields
  let lineMerges ← Json.required count? "line_merges" fields
  let fragmentsDiscarded ← Json.required count? "fragments_discarded" fields
  let micros ← Json.required Json.natural? "total_parse_time" fields
  some ⟨filesParsed, linesRead, fragmentsDispatched, constructsRecognized, lineMerges,
    fragmentsDiscarded, micros * 1000⟩

end Metrics

end HeaderOutline
