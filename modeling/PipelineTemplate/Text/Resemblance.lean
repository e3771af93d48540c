import PipelineTemplate.Text.Occurrence

/-!
# Resemblance of texts

Two texts resemble each other as far as they have blocks of characters in common: the longest block
that both contain, and the blocks on either side of it.
-/

namespace PipelineTemplate.Text

/-- How many characters two texts have in common at their beginnings. -/
def commonStart : List Char → List Char → Nat
  | a :: as, b :: bs => if a = b then commonStart as bs + 1 else 0
  | _, _ => 0

/-- A block that two texts have in common, by its places in both. -/
structure CommonBlock where
  first : Nat := 0
  second : Nat := 0
  size : Nat := 0

/-- The longest common block; of several that are as long, the one that comes first. -/
def longestBlock (a b : List Char) : CommonBlock :=
  let places := (List.range a.length).flatMap fun i => (List.range b.length).map fun j => (i, j)
  places.foldl (fun best (i, j) =>
    let size := commonStart (a.drop i) (b.drop j)
    if best.size < size then ⟨i, j, size⟩ else best) {}

/-- How many characters stand in common blocks. -/
def resemblance (a b : List Char) : Nat :=
  let block := longestBlock a b
  if _h : 0 < block.size ∧ block.first < a.length then
    resemblance (a.take block.first) (b.take block.second) + block.size +
      resemblance (a.drop (block.first + block.size)) (b.drop (block.second + block.size))
  else 0
termination_by a.length
decreasing_by
  · simp +zetaDelta only [List.length_take] at *; omega
  · simp +zetaDelta only [List.length_drop] at *; omega

/-- At most three names that have three fifths of their characters or more in common with a text, in
alphabetical order. -/
def resembling (names : List String) (s : String) : List String :=
  let scored := names.filterMap fun name =>
    let size := name.length + s.length
    let common := resemblance name.toList s.toList
    if 3 * size ≤ 10 * common then some (name, common, size) else none
  let nearer (x y : String × Nat × Nat) : Bool :=
    let (left, right) := (x.2.1 * y.2.2, y.2.1 * x.2.2)
    right < left || (left == right && y.1 < x.1)
  (((scored.mergeSort nearer).take 3).map (·.1)).mergeSort fun x y => !(y < x)

end PipelineTemplate.Text
