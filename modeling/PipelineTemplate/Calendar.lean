import PipelineTemplate.Text.Digit

/-!
# Dates and times

Calendar dates, dates with a time of day, and their standard text.
-/

namespace PipelineTemplate

structure Date where
  year : Nat
  month : Nat
  day : Nat
  deriving DecidableEq

/-- The difference between local time and universal time, in minutes. -/
structure Offset where
  negative : Bool
  minutes : Nat
  deriving DecidableEq

structure DateTime extends Date where
  hour : Nat := 0
  minute : Nat := 0
  second : Nat := 0
  microsecond : Nat := 0
  offset : Option Offset := none
  deriving DecidableEq

def isLeapYear (year : Nat) : Bool :=
  year % 4 == 0 && (year % 100 != 0 || year % 400 == 0)

def daysInMonth (year month : Nat) : Nat :=
  if month = 2 then (if isLeapYear year then 29 else 28)
  else if month ∈ [4, 6, 9, 11] then 30
  else 31

/-- Whether the numbers name a day of the calendar. -/
def Date.isValid (d : Date) : Bool :=
  1 ≤ d.year && d.year ≤ 9999 && 1 ≤ d.month && d.month ≤ 12 &&
    1 ≤ d.day && d.day ≤ daysInMonth d.year d.month

def DateTime.isValid (t : DateTime) : Bool :=
  t.toDate.isValid && t.hour < 24 && t.minute < 60 && t.second < 60 && t.microsecond < 1000000

/-- The form `2024-01-31`. -/
def Date.text (d : Date) : String :=
  Text.padded 4 d.year ++ "-" ++ Text.padded 2 d.month ++ "-" ++ Text.padded 2 d.day

def Offset.text (o : Offset) : String :=
  (if o.negative then "-" else "+") ++ Text.padded 2 (o.minutes / 60) ++ ":" ++
    Text.padded 2 (o.minutes % 60)

/-- The form `2024-01-31T09:30:00`; a fraction of a second takes six places. The separator stands
between date and time. -/
def DateTime.text (t : DateTime) (separator : String) : String :=
  t.toDate.text ++ separator ++ Text.padded 2 t.hour ++ ":" ++ Text.padded 2 t.minute ++ ":" ++
    Text.padded 2 t.second ++
    (if t.microsecond = 0 then "" else "." ++ Text.padded 6 t.microsecond) ++
    (t.offset.map Offset.text).getD ""

end PipelineTemplate
