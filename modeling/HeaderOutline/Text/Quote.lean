/-!
# Quotes

The two marks that open literals. Each is closed by itself.
-/
namespace HeaderOutline.Text

/-- The mark of a string or of a character literal. -/
def isQuote (c : Char) : Bool :=
  c == '\x22' || c == '\x27'

end HeaderOutline.Text
