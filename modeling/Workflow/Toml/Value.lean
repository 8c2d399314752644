import Workflow.Decimal.Reading
import Workflow.Json.Reader
import Workflow.Toml.Document
import Workflow.Toml.Moment

/-!
# Values and keys in TOML

Readers for keys, strings, numbers, dates, arrays and inline tables. A date or time becomes an
object with one field that holds its text. Keys, arrays and inline tables stay below a certain
depth.

Where a reader takes fuel, twice the length of the text and two more is enough: each character costs
at most two steps, one for a bracket or brace and one for what it opens.
-/

namespace Workflow.Toml

/-- The depth that keys, arrays and inline tables stay below. -/
def maxDepth : Nat := 80

def skipBlanks (cs : List Char) : List Char :=
  cs.dropWhile fun c => c == ' ' || c == '\t'

/-- Control characters other than the tabulator stand neither in comments nor in strings. -/
def isPlain (c : Char) : Bool :=
  c == '\t' || (32 ≤ c.toNat && c.toNat != 127)

/-- What follows a line break, if the text starts with one. -/
def newline? : List Char → Option (List Char)
  | '\n' :: cs => some cs
  | '\r' :: '\n' :: cs => some cs
  | _ => none

def skipComment : List Char → List Char
  | '#' :: cs => cs.dropWhile isPlain
  | cs => cs

/-- What follows the end of a line; blanks and a comment may come before it. -/
def endLine? (cs : List Char) : Option (List Char) :=
  match skipComment (skipBlanks cs) with
  | [] => some []
  | cs => newline? cs

/-- The text without the blanks, comments and line breaks in front of it. -/
def skipLines : (fuel : Nat) → List Char → List Char
  | 0, cs => cs
  | fuel + 1, cs =>
    let rest := skipComment (skipBlanks cs)
    match newline? rest with
    | some rest => skipLines fuel rest
    | none => skipBlanks cs

def hexDigits? : (count : Nat) → (read : Nat) → List Char → Option (Nat × List Char)
  | 0, read, cs => some (read, cs)
  | count + 1, read, c :: cs => do hexDigits? count (16 * read + (← Json.hexValue? c)) cs
  | _ + 1, _, [] => none

def scalar? (n : Nat) : Option Char :=
  if n.isValidChar then some (Char.ofNat n) else none

def readEscape? : List Char → Option (Char × List Char)
  | 'u' :: cs => do
    let (n, cs) ← hexDigits? 4 0 cs
    return (← scalar? n, cs)
  | 'U' :: cs => do
    let (n, cs) ← hexDigits? 8 0 cs
    return (← scalar? n, cs)
  | '/' :: _ => none
  | c :: cs => (Json.plainEscape? c).map (·, cs)
  | [] => none

/-- The inside of a string in quotation marks; `read` is what came before, last character first. -/
def readBasic? : (fuel : Nat) → (read : List Char) → List Char → Option (String × List Char)
  | _ + 1, read, '"' :: cs => some (String.ofList read.reverse, cs)
  | fuel + 1, read, '\\' :: cs => do
    let (c, cs) ← readEscape? cs
    readBasic? fuel (c :: read) cs
  | fuel + 1, read, c :: cs => if isPlain c then readBasic? fuel (c :: read) cs else none
  | _ + 1, _, [] => none
  | 0, _, _ => none

/-- The inside of a string between apostrophes. -/
def readLiteral? (cs : List Char) : Option (String × List Char) :=
  match cs.dropWhile (· != '\'') with
  | _ :: rest =>
    let inside := cs.takeWhile (· != '\'')
    if inside.all isPlain then some (String.ofList inside, rest) else none
  | [] => none

/-- The end of a string of several lines: three marks, and up to two more that belong to it. -/
def closing? (mark : Char) : List Char → Option (List Char × List Char)
  | a :: b :: c :: cs =>
    if a = mark && b = mark && c = mark then
      match cs with
      | d :: e :: rest =>
        if d = mark && e = mark then some ([mark, mark], rest)
        else if d = mark then some ([mark], e :: rest)
        else some ([], d :: e :: rest)
      | [d] => if d = mark then some ([mark], []) else some ([], [d])
      | [] => some ([], [])
    else none
  | _ => none

/-- The text without the blanks and line breaks in front of it. -/
def skipSpace : (fuel : Nat) → List Char → List Char
  | 0, cs => cs
  | fuel + 1, cs =>
    match newline? (skipBlanks cs) with
    | some rest => skipSpace fuel rest
    | none => skipBlanks cs

/-- A backslash at the end of a line hides the break and all blanks and breaks after it. -/
def skipHidden? (fuel : Nat) (cs : List Char) : Option (List Char) :=
  (newline? (skipBlanks cs)).map (skipSpace fuel)

/-- The inside of a string of several lines. With `escapes`, backslashes have their meaning. A line
break counts as one character however it is written. -/
def readLines? (mark : Char) (escapes : Bool) :
    (fuel : Nat) → (read : List Char) → List Char → Option (String × List Char)
  | 0, _, _ => none
  | fuel + 1, read, cs =>
    match closing? mark cs with
    | some (marks, rest) => some (String.ofList (marks ++ read).reverse, rest)
    | none =>
      match newline? cs with
      | some rest => readLines? mark escapes fuel ('\n' :: read) rest
      | none =>
        match cs with
        | [] => none
        | c :: cs =>
          if escapes && c = '\\' then
            match skipHidden? fuel cs with
            | some rest => readLines? mark escapes fuel read rest
            | none =>
              match readEscape? cs with
              | some (c, rest) => readLines? mark escapes fuel (c :: read) rest
              | none => none
          else if isPlain c then readLines? mark escapes fuel (c :: read) cs
          else none

def skipNewline (cs : List Char) : List Char :=
  (newline? cs).getD cs

/-- A string, with its opening marks; `none` when the text does not start with a string. -/
def readString? (fuel : Nat) (cs : List Char) : Option (String × List Char) :=
  match cs with
  | '"' :: '"' :: '"' :: cs => readLines? '"' true fuel [] (skipNewline cs)
  | '\'' :: '\'' :: '\'' :: cs => readLines? '\'' false fuel [] (skipNewline cs)
  | '"' :: cs => readBasic? fuel [] cs
  | '\'' :: cs => readLiteral? cs
  | _ => none

def isBare (c : Char) : Bool :=
  c.isAlphanum || c == '_' || c == '-'

def readSimpleKey? (fuel : Nat) (cs : List Char) : Option (String × List Char) :=
  match cs with
  | '"' :: rest => readBasic? fuel [] rest
  | '\'' :: rest => readLiteral? rest
  | cs =>
    let bare := cs.takeWhile isBare
    if bare.isEmpty then none else some (String.ofList bare, cs.dropWhile isBare)

/-- At most `count` parts of a key, with points between them; blanks may stand around each part. -/
def readParts? (fuel : Nat) : (count : Nat) → List Char → Option (List String × List Char)
  | 0, _ => none
  | count + 1, cs => do
    let (part, cs) ← readSimpleKey? fuel (skipBlanks cs)
    match skipBlanks cs with
    | '.' :: cs => do
      let (parts, cs) ← readParts? fuel count cs
      return (part :: parts, cs)
    | cs => return ([part], cs)

/-- A key of one or more parts, which are fewer than `maxDepth`. -/
def readKey? (fuel : Nat) (cs : List Char) : Option (List String × List Char) :=
  readParts? fuel (maxDepth - 1) cs

/-- Digits with single underscores between them, and what follows; the underscores are dropped. -/
def splitGrouped? (isDigit : Char → Bool) (cs : List Char) : Option (List Char × List Char) :=
  let run := cs.takeWhile fun c => isDigit c || c == '_'
  let digits := run.filter isDigit
  let grouped := run.head? != some '_' && run.getLast? != some '_' &&
    !Text.occursIn ['_', '_'] run
  if digits.isEmpty || !grouped then none
  else some (digits, cs.drop run.length)

/-- A whole number in a base that is a power of two, after its two-letter mark. -/
def readBased? (base : Nat) (cs : List Char) : Option (Json × List Char) := do
  let isDigit := fun c => (Json.hexValue? c).any (· < base)
  let (digits, rest) ← splitGrouped? isDigit cs
  let n := digits.foldl (fun n c => base * n + (Json.hexValue? c).getD 0) 0
  if n < 0x8000000000000000 then return (.int n, rest) else none

def readExponent? : List Char → Option (Option Int × List Char)
  | c :: cs =>
    if c == 'e' || c == 'E' then do
      let (negative, cs) := Decimal.splitSign cs
      let (digits, cs) ← splitGrouped? Char.isDigit cs
      let n : Int := Decimal.ofDigits digits
      return (some (if negative then -n else n), cs)
    else some (none, c :: cs)
  | [] => some (none, [])

def readFraction? : List Char → Option (Option (List Char) × List Char)
  | '.' :: cs => (splitGrouped? Char.isDigit cs).map fun (digits, cs) => (some digits, cs)
  | cs => some (none, cs)

/-- A decimal number after its sign. Whole numbers stay within 64 bits with a sign; a positive float
that is too large is refused. -/
def readDecimal? (negative : Bool) (cs : List Char) : Option (Json × List Char) := do
  let (digits, cs) ← splitGrouped? Char.isDigit cs
  if digits.head? == some '0' && 1 < digits.length then none
  let (fraction, cs) ← readFraction? cs
  let (exponent, cs) ← readExponent? cs
  match fraction, exponent with
  | none, none =>
    let n : Int := Decimal.ofDigits digits
    let n := if negative then -n else n
    if -0x8000000000000000 ≤ n && n < 0x8000000000000000 then return (.int n, cs) else none
  | fraction, exponent =>
    let fraction := fraction.getD []
    let x := Decimal.toFloat (Decimal.ofDigits (digits ++ fraction))
      (exponent.getD 0 - fraction.length)
    if negative then return (.float (-x), cs)
    else if x.isFinite then return (.float x, cs)
    else none

def readNumber? (cs : List Char) : Option (Json × List Char) :=
  match cs with
  | '0' :: 'x' :: cs => readBased? 16 cs
  | '0' :: 'o' :: cs => readBased? 8 cs
  | '0' :: 'b' :: cs => readBased? 2 cs
  | cs =>
    let (negative, rest) := Decimal.splitSign cs
    match rest with
    | 'i' :: 'n' :: 'f' :: rest => some (.float (if negative then -1.0 / 0.0 else 1.0 / 0.0), rest)
    | 'n' :: 'a' :: 'n' :: rest => some (.float (0.0 / 0.0), rest)
    | rest => readDecimal? negative rest

def ofMoment (text : String) : Json :=
  .object [("$__toml_private_datetime", text)]

def readScalar? (fuel : Nat) (cs : List Char) : Option (Json × List Char) :=
  match cs with
  | 't' :: 'r' :: 'u' :: 'e' :: rest => some (.bool true, rest)
  | 'f' :: 'a' :: 'l' :: 's' :: 'e' :: rest => some (.bool false, rest)
  | '"' :: _ | '\'' :: _ => (readString? fuel cs).map fun (s, rest) => (.string s, rest)
  | cs =>
    if startsDate cs then (readDated? cs).map fun (text, rest) => (ofMoment text, rest)
    else if startsTime cs then (readTime? cs).map fun (text, rest) => (ofMoment text, rest)
    else readNumber? cs

mutual

/-- A value with nothing in front of it; `depth` bounds the nesting. -/
def readValue? : (fuel depth : Nat) → List Char → Option (Json × List Char)
  | 0, _, _ => none
  | fuel + 1, depth, cs =>
    match cs with
    | '[' :: cs =>
      match depth with
      | 0 => none
      | depth + 1 =>
        (readItems? fuel depth [] (skipLines fuel cs)).map fun (items, cs) =>
          (.array items, cs)
    | '\x7b' :: cs =>
      match depth with
      | 0 => none
      | depth + 1 =>
        match skipBlanks cs with
        | '\x7d' :: cs => some (.object [], cs)
        | cs =>
          (readPairs? fuel depth [] cs).map fun (children, cs) =>
            (.object (childrenToJson children), cs)
    | cs => readScalar? fuel cs

/-- The items of an array and its closing bracket; `read` holds the items before, last first. A
comma may follow the last item. -/
def readItems? : (fuel depth : Nat) → (read : List Json) → List Char →
    Option (List Json × List Char)
  | 0, _, _, _ => none
  | fuel + 1, depth, read, cs =>
    match cs with
    | ']' :: cs => some (read.reverse, cs)
    | cs =>
      match readValue? fuel depth cs with
      | none => none
      | some (item, cs) =>
        match skipLines fuel cs with
        | ',' :: cs => readItems? fuel depth (item :: read) (skipLines fuel cs)
        | ']' :: cs => some ((item :: read).reverse, cs)
        | _ => none

/-- The pairs of an inline table and its closing brace; all stand on one line. -/
def readPairs? : (fuel depth : Nat) → (read : Children) → List Char →
    Option (Children × List Char)
  | 0, _, _, _ => none
  | fuel + 1, depth, read, cs =>
    match readKey? fuel cs with
    | none => none
    | some (key, cs) =>
      match cs with
      | '=' :: cs =>
        match readValue? fuel depth (skipBlanks cs) with
        | none => none
        | some (value, cs) =>
          match assignAt? key.dropLast (key.getLast?.getD "") (.value value) read with
          | none => none
          | some read =>
            match skipBlanks cs with
            | ',' :: cs => readPairs? fuel depth read cs
            | '\x7d' :: cs => some (read, cs)
            | _ => none
      | _ => none

end

end Workflow.Toml
