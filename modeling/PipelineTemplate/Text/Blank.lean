/-!
# Blanks

The characters that count as white space, and trimming. A line separator of any script and the
information separators of the control block are blanks too.
-/

namespace PipelineTemplate.Text

def isBlank (c : Char) : Bool :=
  let n := c.toNat
  (9 ≤ n && n ≤ 13) || (28 ≤ n && n ≤ 32) || n == 0x85 || n == 0xA0 || n == 0x1680 ||
    (0x2000 ≤ n && n ≤ 0x200A) || n == 0x2028 || n == 0x2029 || n == 0x202F || n == 0x205F ||
    n == 0x3000

/-- Drops the blanks at the end. -/
def trimEnd : List Char → List Char
  | [] => []
  | c :: cs =>
    match trimEnd cs with
    | [] => if isBlank c then [] else [c]
    | rest => c :: rest

/-- Drops the blanks at both ends. -/
def trim (cs : List Char) : List Char := trimEnd (cs.dropWhile isBlank)

/-- The text without the blanks at its ends. -/
def strip (s : String) : String := String.ofList (trim s.toList)

/-- Whether nothing but blanks is in the text. -/
def isBlankText (s : String) : Bool := s.toList.all isBlank

theorem trimEnd_eq_nil_iff {cs : List Char} : trimEnd cs = [] ↔ ∀ c ∈ cs, isBlank c = true := by
  induction cs with
  | nil => simp [trimEnd]
  | cons c cs ih =>
    cases h : trimEnd cs with
    | nil =>
      have blanks := ih.1 h
      by_cases hc : isBlank c <;> simp [trimEnd, h, hc]
      exact blanks
    | cons d ds =>
      simp only [trimEnd, h, List.mem_cons, forall_eq_or_imp]
      constructor
      · intro h'; cases h'
      · intro h'; rw [ih.2 h'.2] at h; cases h

end PipelineTemplate.Text
