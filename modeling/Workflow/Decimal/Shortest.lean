/-!
# The shortest decimal that reads back

A finite double stands for an interval of reals, those that round to it. Among all decimals in the
interval the one printed lies on the coarsest grid of powers of ten that meets the interval, and is
there the nearest to the double. The search is in exact integer arithmetic.
-/

namespace Workflow.Decimal

structure Numeral where
  digits : Nat
  exponent : Int
  deriving Repr, DecidableEq

/-- A finite double without its sign: the number `mantissa * 2 ^ exponent`. `narrowBelow` tells
that the double below is only half as far away as the one above. -/
structure Binary where
  mantissa : Nat
  exponent : Int
  narrowBelow : Bool
  deriving Repr, DecidableEq

def Binary.ofBits (bits : UInt64) : Binary :=
  let scale : Nat := bits.toNat / 0x10000000000000 % 2048
  let fraction : Nat := bits.toNat % 0x10000000000000
  if scale = 0 then ⟨fraction, -1074, false⟩
  else ⟨0x10000000000000 + fraction, (scale : Int) - 1075, fraction == 0 && 1 < scale⟩

/-- The number of steps of size `10 ^ grid` that lands in the interval of `x`, if any does. Of two
such numbers the nearer one is taken, and the even one when both are equally near. -/
def Binary.onGrid? (x : Binary) (grid : Int) : Option Nat :=
  -- everything is measured in units of `2 ^ exponent / 4`, scaled to integers
  let unit := Nat.pow 2 x.exponent.toNat * Nat.pow 10 (-grid).toNat
  let step := 4 * Nat.pow 2 (-x.exponent).toNat * Nat.pow 10 grid.toNat
  let value := 4 * x.mantissa * unit
  let lowest := value - (if x.narrowBelow then 1 else 2) * unit
  let highest := value + 2 * unit
  let below := value / step
  let above := below + 1
  let closed := x.mantissa % 2 == 0
  let belowFits := if closed then lowest ≤ below * step else lowest < below * step
  let aboveFits := if closed then above * step ≤ highest else above * step < highest
  let belowGap := value - below * step
  let aboveGap := above * step - value
  if belowFits &&
      (!aboveFits || belowGap < aboveGap || (belowGap == aboveGap && below % 2 == 0)) then
    some below
  else if aboveFits then some above
  else none

/-- The first grid that meets the interval, going down from `grid` in at most `tries` steps. -/
def Binary.coarsest (x : Binary) : (tries : Nat) → (grid : Int) → Numeral
  | 0, grid => ⟨(x.onGrid? grid).getD 0, grid⟩
  | tries + 1, grid =>
    match x.onGrid? grid with
    | some digits => ⟨digits, grid⟩
    | none => x.coarsest tries (grid - 1)

/-- The decimal with the fewest digits that rounds to `x`, and of those the nearest to `x`. The
search starts at a power of ten above `x` and needs at most seventeen digits below it. -/
def Binary.shortest (x : Binary) : Numeral :=
  if x.mantissa = 0 then ⟨0, 0⟩
  else x.coarsest 24 ((x.mantissa.log2 + x.exponent + 1) * 30103 / 100000 + 2)

/-- How a decimal is laid out: in positional notation while the exponent of the first digit lies
between the two bounds, else with an exponent. -/
structure Layout where
  least : Int
  most : Int

def zeros (n : Nat) : String :=
  String.ofList (List.replicate n '0')

def signed (n : Int) : String :=
  (if n < 0 then "-" else "+") ++ toString n.natAbs

/-- The text of a decimal: positional notation keeps at least one digit after the point, and an
exponent carries its sign. -/
def Layout.write (layout : Layout) (d : Numeral) : String :=
  let text := toString d.digits
  let first : Int := d.exponent + text.length - 1
  if d.digits = 0 then "0.0"
  else if layout.least ≤ first && first ≤ layout.most then
    if 0 ≤ d.exponent then text ++ zeros d.exponent.toNat ++ ".0"
    else if 0 ≤ first then
      let whole := first.toNat + 1
      String.ofList (text.toList.take whole) ++ "." ++ String.ofList (text.toList.drop whole)
    else "0." ++ zeros (-first - 1).toNat ++ text
  else
    match text.toList with
    | [] => ""
    | lead :: [] => String.singleton lead ++ "e" ++ signed first
    | lead :: rest => String.singleton lead ++ "." ++ String.ofList rest ++ "e" ++ signed first

/-- The text of a finite double; minus zero keeps its sign. -/
def Layout.writeFloat (layout : Layout) (x : Float) : String :=
  let bits := x.toBits
  let text := layout.write (Binary.ofBits bits).shortest
  if bits.toNat < 0x8000000000000000 then text else "-" ++ text

end Workflow.Decimal
