import Workflow.Decimal.Reading
import Workflow.Json.Basic
import Workflow.Table

/-!
# Reading JSON

A reader takes characters off the front of a text and gives back what it read with the characters
that are left. `Json.read?` reads a whole text. Arrays and objects may be nested 127 deep.
-/

namespace Workflow.Json

def skipBlanks (cs : List Char) : List Char :=
  cs.dropWhile fun c => c == ' ' || c == '\n' || c == '\t' || c == '\r'

def hexValue? (c : Char) : Option Nat :=
  if c.isDigit then some (c.toNat - 48)
  else if 'a' ≤ c && c ≤ 'f' then some (c.toNat - 87)
  else if 'A' ≤ c && c ≤ 'F' then some (c.toNat - 55)
  else none

def readUnit? : List Char → Option (Nat × List Char)
  | a :: b :: c :: d :: cs => do
    let a ← hexValue? a
    let b ← hexValue? b
    let c ← hexValue? c
    let d ← hexValue? d
    return (4096 * a + 256 * b + 16 * c + d, cs)
  | _ => none

/-- What follows the letter `u` of an escape: one code unit, or two that form a surrogate pair. -/
def readCodePoint? (cs : List Char) : Option (Char × List Char) := do
  let (high, rest) ← readUnit? cs
  if 0xDC00 ≤ high && high ≤ 0xDFFF then none
  else if 0xD800 ≤ high && high ≤ 0xDBFF then
    match rest with
    | '\\' :: 'u' :: rest =>
      let (low, rest) ← readUnit? rest
      if 0xDC00 ≤ low && low ≤ 0xDFFF then
        return (Char.ofNat (0x10000 + 1024 * (high - 0xD800) + (low - 0xDC00)), rest)
      else none
    | _ => none
  else return (Char.ofNat high, rest)

def plainEscape? (c : Char) : Option Char :=
  match c with
  | '"' => some '"'
  | '\\' => some '\\'
  | '/' => some '/'
  | 'b' => some (Char.ofNat 8)
  | 'f' => some (Char.ofNat 12)
  | 'n' => some '\n'
  | 'r' => some '\r'
  | 't' => some '\t'
  | _ => none

/-- The inside of a string up to its closing quotation mark; `read` holds what has been read, last
character first. -/
def readString? : (fuel : Nat) → (read : List Char) → List Char → Option (String × List Char)
  | 0, _, _ => none
  | _ + 1, _, [] => none
  | _ + 1, read, '"' :: cs => some (String.ofList read.reverse, cs)
  | fuel + 1, read, '\\' :: 'u' :: cs => do
    let (c, cs) ← readCodePoint? cs
    readString? fuel (c :: read) cs
  | fuel + 1, read, '\\' :: c :: cs => do
    readString? fuel ((← plainEscape? c) :: read) cs
  | fuel + 1, read, c :: cs =>
    if c = '\\' || c.toNat < 32 then none else readString? fuel (c :: read) cs

/-- Adds digits to `gathered` while the result stays below `2 ^ 64`. The answer is the number and
how many digits went into it. Digits that no longer fit are dropped, and before the point each of
them counts as a power of ten. The double nearest to the number is then multiplied or divided by the
double nearest to the power of ten. -/
def gather (gathered : Nat) (count : Nat) : List Char → Nat × Nat
  | [] => (gathered, count)
  | c :: cs =>
    let next := 10 * gathered + (c.toNat - 48)
    if next < 0x10000000000000000 then gather next (count + 1) cs else (gathered, count)

/-- `x * 10 ^ exponent`, in steps of at most `10 ^ 308`; a result that is too large is refused. -/
def scale? : (steps : Nat) → (x : Float) → (exponent : Int) → Option Float
  | 0, x, _ => some x
  | steps + 1, x, exponent =>
    if exponent.natAbs ≤ 308 then
      let power := Float.ofScientific 1 false exponent.natAbs
      if 0 ≤ exponent then
        let scaled := x * power
        if scaled.isFinite then some scaled else none
      else some (x / power)
    else if x == 0.0 then some x
    else if 0 ≤ exponent then none
    else scale? steps (x / 1e308) (exponent + 308)

def decimal? (negative : Bool) (gathered : Nat) (exponent : Int) : Option Json := do
  let x ← scale? 4 (Float.ofNat gathered) exponent
  return float (if negative then -x else x)

/-- A whole number: an integer if it fits 64 bits, with or without a sign, else a float. Minus zero
is a float. -/
def whole? (negative : Bool) (digits : List Char) : Option Json :=
  let n := Decimal.ofDigits digits
  if !negative && n < 0x10000000000000000 then some (int n)
  else if negative && 0 < n && n ≤ 0x8000000000000000 then some (int (-(n : Int)))
  else
    let (gathered, count) := gather 0 0 digits
    decimal? negative gathered (digits.length - count : Nat)

def readNumber? (negative : Bool) (cs : List Char) : Option (Json × List Char) :=
  let (digits, rest) := Decimal.splitDigits cs
  if digits.isEmpty || (digits.head? == some '0' && 1 < digits.length) then none
  else
    let (gathered, count) := gather 0 0 digits
    let dropped : Int := (digits.length - count : Nat)
    match rest with
    | '.' :: rest =>
      let (fraction, rest) := Decimal.splitDigits rest
      let (gathered, used) := gather gathered 0 fraction
      if fraction.isEmpty then none
      else
        match Decimal.splitExponent? rest with
        | some (exponent, rest) =>
          (decimal? negative gathered (dropped - used + exponent)).map (·, rest)
        | none => none
    | rest =>
      match Decimal.splitExponent? rest with
      | some (exponent, after) =>
        if after.length == rest.length then (whole? negative digits).map (·, rest)
        else (decimal? negative gathered (dropped + exponent)).map (·, after)
      | none => none

def expect? (word : List Char) (cs : List Char) : Option (List Char) :=
  if word.isPrefixOf cs then some (cs.drop word.length) else none

mutual

/-- A value with no blank in front of it; `depth` bounds the nesting. -/
def readValue? : (fuel depth : Nat) → List Char → Option (Json × List Char)
  | fuel + 1, depth, cs =>
    match cs with
    | 'n' :: cs => (expect? ['u', 'l', 'l'] cs).map (null, ·)
    | 't' :: cs => (expect? ['r', 'u', 'e'] cs).map (bool true, ·)
    | 'f' :: cs => (expect? ['a', 'l', 's', 'e'] cs).map (bool false, ·)
    | '"' :: cs => (readString? fuel [] cs).map fun (s, cs) => (string s, cs)
    | '-' :: cs => readNumber? true cs
    | '[' :: cs =>
      match depth with
      | 0 => none
      | depth + 1 =>
        match skipBlanks cs with
        | ']' :: cs => some (array [], cs)
        | cs => (readItems? fuel depth [] cs).map fun (items, cs) => (array items, cs)
    | '\x7b' :: cs =>
      match depth with
      | 0 => none
      | depth + 1 =>
        match skipBlanks cs with
        | '\x7d' :: cs => some (object [], cs)
        | cs => (readFields? fuel depth [] cs).map fun (fields, cs) => (object fields, cs)
    | cs => readNumber? false cs
  | 0, _, _ => none

/-- The items of an array up to its closing bracket; `read` holds the items before, last first. -/
def readItems? : (fuel depth : Nat) → (read : List Json) → List Char →
    Option (List Json × List Char)
  | fuel + 1, depth, read, cs =>
    match readValue? fuel depth (skipBlanks cs) with
    | some (item, cs) =>
      match skipBlanks cs with
      | ',' :: cs => readItems? fuel depth (item :: read) cs
      | ']' :: cs => some ((item :: read).reverse, cs)
      | _ => none
    | none => none
  | 0, _, _, _ => none

/-- The fields of an object up to its closing brace; a repeated name replaces the earlier field. -/
def readFields? : (fuel depth : Nat) → (read : Table Json) → List Char →
    Option (Table Json × List Char)
  | fuel + 1, depth, read, cs =>
    match skipBlanks cs with
    | '"' :: cs =>
      match readString? fuel [] cs with
      | some (name, cs) =>
        match skipBlanks cs with
        | ':' :: cs =>
          match readValue? fuel depth (skipBlanks cs) with
          | some (value, cs) =>
            match skipBlanks cs with
            | ',' :: cs => readFields? fuel depth (read.put name value) cs
            | '\x7d' :: cs => some (read.put name value, cs)
            | _ => none
          | none => none
        | _ => none
      | none => none
    | _ => none
  | 0, _, _, _ => none

end

def read? (text : String) : Option Json :=
  let cs := skipBlanks text.toList
  match readValue? (2 * cs.length + 2) 127 cs with
  | some (value, rest) => if (skipBlanks rest).isEmpty then some value else none
  | none => none

end Workflow.Json
