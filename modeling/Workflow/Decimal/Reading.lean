import Workflow.Text.Blank

/-!
# Numbers written in decimal

Signed whole numbers and signed decimals, as they occur inside expressions and parameters.
-/

namespace Workflow.Decimal

def splitDigits (cs : List Char) : List Char × List Char :=
  (cs.takeWhile Char.isDigit, cs.dropWhile Char.isDigit)

def ofDigits (digits : List Char) : Nat :=
  digits.foldl (fun n c => 10 * n + (c.toNat - 48)) 0

def splitSign : List Char → Bool × List Char
  | '-' :: cs => (true, cs)
  | '+' :: cs => (false, cs)
  | cs => (false, cs)

/-- A whole number with an optional sign, within the range of 64-bit signed integers. -/
def readInt? (cs : List Char) : Option Int :=
  let (negative, digits) := splitSign cs
  if digits.isEmpty || !digits.all Char.isDigit then none
  else
    let n : Int := ofDigits digits
    let value := if negative then -n else n
    if -0x8000000000000000 ≤ value && value < 0x8000000000000000 then some value else none

/-- The double nearest to `digits * 10 ^ exponent`. Beyond the exponents that doubles reach, the
answer is known without computing the power. -/
def toFloat (digits : Nat) (exponent : Int) : Float :=
  let magnitude : Int := (toString digits).length + exponent
  if digits = 0 || magnitude < -330 then 0.0
  else if 311 < magnitude then 1.0 / 0.0
  else Float.ofScientific digits (exponent < 0) exponent.natAbs

def splitExponent? : List Char → Option (Int × List Char)
  | c :: cs =>
    if c == 'e' || c == 'E' then
      let (negative, rest) := splitSign cs
      let (digits, rest) := splitDigits rest
      if digits.isEmpty then none
      else
        let n : Int := ofDigits digits
        some (if negative then -n else n, rest)
    else some (0, c :: cs)
  | [] => some (0, [])

def readNonFinite? (cs : List Char) : Option Float :=
  if Text.eqIgnoringCase cs "inf".toList || Text.eqIgnoringCase cs "infinity".toList then
    some (1.0 / 0.0)
  else if Text.eqIgnoringCase cs "nan".toList then some (0.0 / 0.0)
  else none

/-- A decimal without a sign: digits with at most one point among or around them, and an optional
exponent. -/
def readUnsigned? (cs : List Char) : Option Float :=
  let (whole, rest) := splitDigits cs
  let (fraction, rest) := match rest with
    | '.' :: rest => splitDigits rest
    | rest => ([], rest)
  if whole.isEmpty && fraction.isEmpty then none
  else
    match splitExponent? rest with
    | some (exponent, []) =>
      some (toFloat (ofDigits (whole ++ fraction)) (exponent - fraction.length))
    | _ => none

/-- A decimal with an optional sign, an infinity or a NaN, rounded to the nearest double. -/
def readFloat? (cs : List Char) : Option Float :=
  let (negative, rest) := splitSign cs
  let magnitude := (readNonFinite? rest).orElse fun _ => readUnsigned? rest
  magnitude.map fun x => if negative then -x else x

end Workflow.Decimal
