import HeaderOutline.Skeleton
import HeaderOutline.Text.Uppercase
/-!
# Test scaffolds

The text of a unit test file for a header. Every class that can be reached from outside gets a suite
when it ends, with a test for each of its public functions; its constructors share one test, and
operators have none. Functions outside all classes are gathered in a suite that is named after the
header. No suite holds two tests of one name.

The scaffold is a list of parts, which `Part.render` writes. Classes are kept on a stack of their
own while they are open; an end that does not belong to the innermost of them is a mismatch.

Results: `Suite.nodup_addTest`, adding a test keeps the names distinct.
-/
namespace HeaderOutline

/-- Tests that belong together. The class that holds them is named `<name>Test`. -/
structure Suite where
  name : String
  tests : List String
  deriving DecidableEq, Repr

namespace Suite

/-- The name of the class that holds the tests. -/
def fixture (s : Suite) : String :=
  s.name ++ "Test"

/-- The tests with one more, unless they have it already. -/
def addTest (test : String) (tests : List String) : List String :=
  if tests.contains test then tests else tests ++ [test]

theorem nodup_addTest {test : String} {tests : List String} (h : tests.Nodup) :
    (addTest test tests).Nodup := by
  unfold addTest
  split
  · exact h
  · next hc =>
    have hc : test ∉ tests := by simpa using hc
    rw [List.nodup_append]
    exact ⟨h, by simp, by rintro a ha b hb rfl; simp_all⟩

/-- The suite as it is written: the class, its registration, and a body for every method. Mirrors
`write_fixture`. -/
def render (s : Suite) : String :=
  let f := s.fixture
  "class " ++ f ++ " : public CppUnit::TestFixture\n\x7b\n" ++
  "    CPPUNIT_TEST_SUITE(" ++ f ++ ");\n" ++
  String.join (s.tests.map fun t => "    CPPUNIT_TEST(" ++ t ++ ");\n") ++
  "    CPPUNIT_TEST_SUITE_END();\n\n" ++
  "public:\n    void setUp();\n    void tearDown();\n\n" ++
  String.join (s.tests.map fun t => "    void " ++ t ++ "();\n") ++
  "\x7d;\n\n" ++
  "CPPUNIT_TEST_SUITE_REGISTRATION(" ++ f ++ ");\n\n" ++
  "void " ++ f ++ "::setUp()\n\x7b\n\x7d\n\n" ++
  "void " ++ f ++ "::tearDown()\n\x7b\n\x7d\n\n" ++
  String.join (s.tests.map fun t =>
    "void " ++ f ++ "::" ++ t ++ "()\n\x7b\n    CPPUNIT_FAIL(\x22not implemented\x22);\n\x7d\n\n")

end Suite

namespace Scaffold

/-- A part of the test file. -/
inductive Part where
  /-- The headers that a test needs. -/
  | includes (header : String)
  /-- The names of a namespace are used without it. -/
  | usingNamespace (path : List String)
  | suite (item : Suite)
  deriving DecidableEq, Repr

def Part.render : Part → String
  | includes header =>
    "#include <cppunit/extensions/HelperMacros.h>\n#include \x22" ++ header ++ "\x22\n\n"
  | usingNamespace path => "using namespace " ++ "::".intercalate path ++ ";\n\n"
  | suite s => s.render

/-- A class that has begun and not ended. -/
structure OpenClass where
  suite : Suite
  /-- Every class around it grants public access. -/
  isReachable : Bool
  deriving DecidableEq, Repr

/-- A class ended that was not the innermost open one. -/
structure ClassMismatch where
  expected : String
  found : String
  deriving DecidableEq, Repr

def ClassMismatch.message (m : ClassMismatch) : String :=
  "Mismatched class names: expected end of " ++ m.expected ++ ", found " ++ m.found

end Scaffold

open Scaffold in
/-- A test file in the making: its parts so far, the open classes, innermost first, the tests of
functions outside all classes, and the first mismatch. -/
structure Scaffold where
  parts : List Part
  classes : List OpenClass
  freeTests : List String
  mismatch : Option ClassMismatch
  deriving DecidableEq, Repr

namespace Scaffold

def start : Scaffold :=
  ⟨[], [], [], none⟩

/-- The test of a function. -/
def testName (function : String) : String :=
  String.ofList ("test".toList ++ Text.capitalize function.toList)

/-- The name of the suite for functions outside all classes. Mirrors `header_fixture_name`. -/
def headerSuite (header : String) : String :=
  let stem := Path.stem header
  if stem.isEmpty then "Header" else String.ofList (Text.capitalize stem.toList)

def add (part : Part) (s : Scaffold) : Scaffold :=
  { s with parts := s.parts ++ [part] }

/-- The scaffold with a test for a function, if it can be reached from outside. Mirrors
`add_test`. -/
def addTest (c : Callback) (function : String) (s : Scaffold) : Scaffold :=
  if c.scopes.isPublic then
    let test := testName function
    match s.classes with
    | [] => { s with freeTests := Suite.addTest test s.freeTests }
    | k :: ks =>
      { s with classes := { k with suite.tests := Suite.addTest test k.suite.tests } :: ks }
  else s

/-- The scaffold once a class of this name has ended. Mirrors `on_class_end`. -/
def endClass (name : String) (s : Scaffold) : Scaffold :=
  match s.classes with
  | [] => { s with mismatch := s.mismatch <|> some ⟨"", name⟩ }
  | k :: ks =>
    let s := { s with classes := ks }
    if k.suite.name ≠ name then { s with mismatch := s.mismatch <|> some ⟨k.suite.name, name⟩ }
    else if k.isReachable then s.add (.suite k.suite) else s

/-- The scaffold once the reading has ended. Mirrors `on_post_parse`. -/
def endParse (header : String) (s : Scaffold) : Scaffold :=
  if s.freeTests.isEmpty then s
  else { s.add (.suite ⟨headerSuite header, s.freeTests⟩) with freeTests := [] }

/-- The scaffold after a callback. `header` is the name under which the header is included. The
scope of a class is on top when the class starts, and only what is around it decides. Mirrors
`UnitTestScaffold`. -/
def next (header : String) (s : Scaffold) (c : Callback) : Scaffold :=
  match c.event with
  | .parseStart => s.add (.includes header)
  | .parseEnd => s.endParse header
  | .nameSpace name => if name.isEmpty then s else s.add (.usingNamespace (c.scopes.path ++ [name]))
  | .classStart name =>
    { s with classes := ⟨⟨name, []⟩, ScopeStack.isPublic c.scopes.tail⟩ :: s.classes }
  | .classEnd name => s.endClass name
  | .functionDecl f | .functionDef f => if f.isOperator then s else s.addTest c f.name
  | .constructorDecl .. | .constructorDef .. => s.addTest c "Constructor"
  | _ => s

/-- The scaffold of a header whose reading made these callbacks. -/
def ofCallbacks (header : String) (cs : List Callback) : Scaffold :=
  cs.foldl (next (Skeleton.includeName header)) start

def render (s : Scaffold) : String :=
  String.join (s.parts.map Part.render)

/-- The text of the test file, unless there was a mismatch. Mirrors `finish`. -/
def finish (s : Scaffold) : Except ClassMismatch String :=
  match s.mismatch with
  | some m => .error m
  | none => .ok s.render

end Scaffold

end HeaderOutline
