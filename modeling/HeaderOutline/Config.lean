/-!
# Configuration

How large a file may be that is read from disk, and whether the log tells of the constructs that are
found. Text that is in memory already may have any size.
-/
namespace HeaderOutline

structure Config where
  /-- In bytes. A file of exactly this size is still read. -/
  maxFileSize : Nat
  /-- A tracer listens ahead of everyone else. -/
  installTracer : Bool
  deriving DecidableEq, Repr

namespace Config

/-- Ten mebibytes, and a tracer. -/
def standard : Config :=
  ⟨10 * 1024 * 1024, true⟩

/-- The standard settings without a tracer. -/
def quiet : Config :=
  ⟨standard.maxFileSize, false⟩

def withMaxFileSize (size : Nat) (c : Config) : Config :=
  { c with maxFileSize := size }

def withoutTracer (c : Config) : Config :=
  { c with installTracer := false }

end Config

end HeaderOutline
