import PipelineTemplate.Text.CaseTable

/-!
# Changing letter case

Capital and small forms of a text. A letter may turn into several, and a capital sigma at the end of
a word turns into the final small sigma.
-/

namespace PipelineTemplate.Text

/-- The characters that a mapping table gives for one character, itself if the table has none. -/
def mapCase (runs : List CaseRun) (expansions : List (Nat × List Nat)) (c : Char) : List Char :=
  match expansions.lookup c.toNat with
  | some codes => codes.map Char.ofNat
  | none => [(runs.findSome? fun run => run.apply? c).getD c]

def lowerChar (c : Char) : List Char :=
  if c.toNat < 0x80 then [c.toLower] else mapCase lowerRuns lowerExpansions c

def upperChar (c : Char) : List Char :=
  if c.toNat < 0x80 then [c.toUpper] else mapCase upperRuns upperExpansions c

/-- Whether the nearest letter, passing over marks and the like, has a case. -/
def nextIsCased : List Char → Bool
  | [] => false
  | c :: cs => if caseIgnorable.contains c then nextIsCased cs else cased.contains c

/-- The small form of a text, given what stands before it in reverse order. -/
def lowerAfter (before : List Char) : List Char → List Char
  | [] => []
  | c :: cs =>
    let small :=
      if c.toNat == 0x3A3 then
        [if nextIsCased before && !nextIsCased cs then Char.ofNat 0x3C2 else Char.ofNat 0x3C3]
      else lowerChar c
    small ++ lowerAfter (c :: before) cs

def lower (s : String) : String := String.ofList (lowerAfter [] s.toList)

def upper (s : String) : String := String.ofList (s.toList.flatMap upperChar)

end PipelineTemplate.Text
