import PipelineTemplate.Text.WordTable

/-!
# Words and names

A name starts with a plain Latin letter or an underscore.
-/

namespace PipelineTemplate.Text

/-- Letters, digits and numerals of any script, and the underscore. -/
def isWordChar (c : Char) : Bool :=
  if c.toNat < 0x80 then c.isAlphanum || c == '_' else wordCharacters.contains c

def isNameStart (c : Char) : Bool := c.isAlpha || c == '_'

/-- Plain Latin letters and digits, and the underscore. -/
def isNameChar (c : Char) : Bool := c.isAlphanum || c == '_'

end PipelineTemplate.Text
