import HeaderOutline.Text.Split
/-!
# Paths of headers

The parts of a path whose components are parted by slashes. Slashes at the end and components that
are a single dot do not count, and a path that ends in two dots names no file. The extension of a
file name begins behind its last dot; a name that begins with its only dot has none.
-/
namespace HeaderOutline.Path
open Text

/-- A component that names nothing of its own. -/
def isVoid (component : List Char) : Bool :=
  component.isEmpty || component == ['.']

/-- The last component of a path, unless it leads to no file. -/
def fileName? (path : String) : Option String :=
  match (split '/' path.toList).reverse.dropWhile isVoid with
  | [] => none
  | name :: _ => if name = ['.', '.'] then none else some (String.ofList name)

/-- The stem of a file name, and its extension if it has one. -/
def cutExtension (name : List Char) : List Char × Option (List Char) :=
  let extension := (name.reverse.takeWhile (· ≠ '.')).reverse
  match name.reverse.dropWhile (· ≠ '.') with
  | [] | [_] => (name, none)
  | _ :: stem => (stem.reverse, some extension)

def stem (name : String) : String :=
  String.ofList (cutExtension name.toList).1

/-- The extension of the file that a path names. -/
def extension? (path : String) : Option String :=
  (fileName? path).bind fun name => (cutExtension name.toList).2.map String.ofList

def headerExtensions : List String :=
  [".h", ".hpp", ".hh", ".hxx"]

/-- Mirrors `can_parse`. -/
def isHeader (path : String) : Bool :=
  (extension? path).any fun e => headerExtensions.contains ("." ++ e)

end HeaderOutline.Path
