/-!
# Enum declarations

An enum as it is reported: its name, if it has one, and the names of its members. The values of the
members are not kept.
-/
namespace HeaderOutline

structure EnumDecl where
  name : Option String
  members : List String
  deriving DecidableEq, Repr

end HeaderOutline
