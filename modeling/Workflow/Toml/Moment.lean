import Workflow.Decimal.Reading

/-!
# Dates and times in TOML

A date, a time, or both, the latter optionally with an offset. What is read is given back in its
normal form: a capital `T` between date and time, a fraction without trailing zeros and of at most
nine digits, and `Z` or a signed offset.
-/

namespace Workflow.Toml

def fixedDigits? (count least most : Nat) (cs : List Char) : Option (Nat × List Char) :=
  let digits := cs.take count
  let n := Decimal.ofDigits digits
  if digits.length == count && digits.all Char.isDigit && least ≤ n && n ≤ most then
    some (n, cs.drop count)
  else none

def skip? (c : Char) : List Char → Option (List Char)
  | d :: cs => if c = d then some cs else none
  | [] => none

def padded (width n : Nat) : String :=
  let text := toString n
  String.ofList (List.replicate (width - text.length) '0') ++ text

def isLeapYear (year : Nat) : Bool :=
  year % 4 == 0 && (year % 100 != 0 || year % 400 == 0)

def daysInMonth (year month : Nat) : Nat :=
  match month with
  | 2 => if isLeapYear year then 29 else 28
  | 4 | 6 | 9 | 11 => 30
  | _ => 31

def readDate? (cs : List Char) : Option (String × List Char) := do
  let (year, cs) ← fixedDigits? 4 0 9999 cs
  let cs ← skip? '-' cs
  let (month, cs) ← fixedDigits? 2 1 12 cs
  let cs ← skip? '-' cs
  let (day, cs) ← fixedDigits? 2 1 31 cs
  if daysInMonth year month < day then none
  else return (padded 4 year ++ "-" ++ padded 2 month ++ "-" ++ padded 2 day, cs)

def readSubsecond? : List Char → Option (String × List Char)
  | '.' :: cs =>
    let (digits, rest) := Decimal.splitDigits cs
    let kept := ((digits.take 9).reverse.dropWhile (· == '0')).reverse
    if digits.isEmpty then none
    else some (if kept.isEmpty then "" else "." ++ String.ofList kept, rest)
  | cs => some ("", cs)

def readTime? (cs : List Char) : Option (String × List Char) := do
  let (hour, cs) ← fixedDigits? 2 0 23 cs
  let cs ← skip? ':' cs
  let (minute, cs) ← fixedDigits? 2 0 59 cs
  let cs ← skip? ':' cs
  let (second, cs) ← fixedDigits? 2 0 60 cs
  let (fraction, cs) ← readSubsecond? cs
  return (padded 2 hour ++ ":" ++ padded 2 minute ++ ":" ++ padded 2 second ++ fraction, cs)

def readHours? (cs : List Char) : Option (Nat × List Char) := do
  let (hours, cs) ← fixedDigits? 2 0 23 cs
  let cs ← skip? ':' cs
  let (minutes, cs) ← fixedDigits? 2 0 59 cs
  return (60 * hours + minutes, cs)

/-- The offset, if the text goes on with one. An offset of zero minutes is never negative. -/
def readOffset? : List Char → Option (String × List Char)
  | c :: cs =>
    if c = 'Z' || c = 'z' then some ("Z", cs)
    else if c = '+' || c = '-' then do
      let (minutes, cs) ← readHours? cs
      let sign := if c = '-' && minutes != 0 then "-" else "+"
      return (sign ++ padded 2 (minutes / 60) ++ ":" ++ padded 2 (minutes % 60), cs)
    else some ("", c :: cs)
  | [] => some ("", [])

/-- Whether a time follows a date: a separator and two digits. -/
def timeFollows : List Char → Bool
  | c :: cs => (c == 'T' || c == 't' || c == ' ') && (fixedDigits? 2 0 23 cs).isSome
  | [] => false

/-- A date with the time and offset that follow it. -/
def readDated? (cs : List Char) : Option (String × List Char) := do
  let (date, cs) ← readDate? cs
  if timeFollows cs then
    let (time, cs) ← readTime? (cs.drop 1)
    let (offset, cs) ← readOffset? cs
    return (date ++ "T" ++ time ++ offset, cs)
  else return (date, cs)

/-- Whether a text starts like a date: four digits and a dash. -/
def startsDate (cs : List Char) : Bool :=
  ((fixedDigits? 4 0 9999 cs).bind fun (_, cs) => skip? '-' cs).isSome

/-- Whether a text starts like a time: two digits and a colon. -/
def startsTime (cs : List Char) : Bool :=
  ((fixedDigits? 2 0 23 cs).bind fun (_, cs) => skip? ':' cs).isSome

end Workflow.Toml
