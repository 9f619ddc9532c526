import HeaderOutline.Outline.Collect
import HeaderOutline.Session
/-!
# Headers on disk

A file is refused when it is missing, larger than the settings allow, or not in UTF-8. The size is
looked at before the bytes are. Otherwise its text is read like any other, and its outline carries
the path.

Results: `exists_of_outline`, a text that has an outline has been read to its end.
-/
namespace HeaderOutline

/-- A file, as far as it is there. -/
structure HeaderFile where
  path : String
  bytes : Option ByteArray

/-- Why a header could not be read. -/
inductive ReadError where
  /-- There is no such file. -/
  | notFound (path : String)
  /-- The file is not in UTF-8. -/
  | invalidText (path : String)
  | tooLarge (path : String) (size : Nat)
  | unbalanced (cause : UnbalancedBrace)
  deriving DecidableEq, Repr

def tooLargeMessage (path : String) (size : Nat) : String :=
  "File " ++ path ++ " exceeds maximum size (" ++ toString size ++ " bytes)"

namespace HeaderFile

def text (config : Config) (file : HeaderFile) : Except ReadError String :=
  match file.bytes with
  | none => .error (.notFound file.path)
  | some bytes =>
    if config.maxFileSize < bytes.size then .error (.tooLarge file.path bytes.size)
    else match String.fromUTF8? bytes with
      | none => .error (.invalidText file.path)
      | some text => .ok text

/-- The reading of a file, if it comes to one. Mirrors `parse_file`. -/
def read (config : Config) (file : HeaderFile) : Except ReadError Reading :=
  (file.text config).map parse

def outline (config : Config) (file : HeaderFile) : Except ReadError Outline :=
  match file.read config with
  | .error e => .error e
  | .ok r => match r.result with
    | .error e => .error (.unbalanced e)
    | .ok _ => .ok { Outline.ofCallbacks r.callbacks with filePath := some file.path }

end HeaderFile

def outline (source : String) : Except UnbalancedBrace Outline :=
  let r := parse source
  r.result.map fun _ => Outline.ofCallbacks r.callbacks

/-- A text that has an outline has been read to its end. -/
theorem exists_of_outline {source : String} {o : Outline} (h : outline source = .ok o) :
    ∃ f, (parse source).result = .ok f ∧ Outline.ofCallbacks (parse source).callbacks = o := by
  simp only [outline] at h
  cases hr : (parse source).result with
  | error e => rw [hr] at h; cases h
  | ok f => rw [hr] at h; exact ⟨f, rfl, Except.ok.inj h⟩

end HeaderOutline
