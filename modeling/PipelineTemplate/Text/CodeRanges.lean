/-!
# Sets of characters by code point

A property of characters is given as a list of inclusive ranges of code points, in ascending order.
-/

namespace PipelineTemplate.Text

abbrev CodeRanges := List (Nat × Nat)

/-- Whether some range holds the character. -/
def CodeRanges.contains (ranges : CodeRanges) (c : Char) : Bool :=
  ranges.any fun (first, last) => first ≤ c.toNat && c.toNat ≤ last

end PipelineTemplate.Text
