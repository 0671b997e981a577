/-!
# The shortest decimal of a float

A float `m · 2^q` stands for all reals that round to it. Of the decimals in that interval,
`shortest` takes one with the fewest digits, and of those the one nearest to the float. All
arithmetic is exact: reals are fractions of natural numbers, and for each number of digits only the
two neighbours of the float on that decimal grid are tested.
-/

namespace ThreeAddress.Decimal

/-- A finite binary fraction without sign, `significand · 2^exponent`. -/
structure Binary where
  significand : Nat
  exponent : Int
  /-- Whether the next smaller float is only half as far away as the next larger one. -/
  narrowBelow : Bool
deriving DecidableEq, Repr

/-- The magnitude of a finite double. -/
def Binary.ofFloat (x : Float) : Binary :=
  let bits := x.toBits.toNat
  let fraction := bits % 1 <<< 52
  let scale := bits >>> 52 % 2048
  if scale = 0 then ⟨fraction, -1074, false⟩
  else ⟨1 <<< 52 + fraction, Int.ofNat scale - 1075, fraction = 0 && 1 < scale⟩

/-- A nonnegative real as a fraction. -/
structure Ratio where
  num : Nat
  den : Nat
deriving DecidableEq, Repr

namespace Ratio

/-- The value `n · b^e`. -/
def scaled (n b : Nat) (e : Int) : Ratio :=
  if e < 0 then ⟨n, Nat.pow b e.natAbs⟩ else ⟨n * Nat.pow b e.natAbs, 1⟩

/-- The product with `10^e`. -/
def shift (r : Ratio) (e : Int) : Ratio :=
  if e < 0 then ⟨r.num, r.den * Nat.pow 10 e.natAbs⟩ else ⟨r.num * Nat.pow 10 e.natAbs, r.den⟩

def floor (r : Ratio) : Nat := r.num / r.den

def lt (r s : Ratio) : Bool := r.num * s.den < s.num * r.den

def le (r s : Ratio) : Bool := r.num * s.den ≤ s.num * r.den

end Ratio

/-- The reals that round to a float, given four times their value in units of `2^exponent`. The
ends belong to the interval when the significand is even. -/
def Binary.rounds (x : Binary) (r : Ratio) : Bool :=
  let low := Ratio.scaled (4 * x.significand - if x.narrowBelow then 1 else 2) 2 (x.exponent - 2)
  let high := Ratio.scaled (4 * x.significand + 2) 2 (x.exponent - 2)
  if x.significand % 2 = 0 then low.le r && r.le high else low.lt r && r.lt high

/-- A decimal `digits · 10^exponent`. -/
structure Shortened where
  digits : Nat
  exponent : Int
deriving DecidableEq, Repr

/-- The exponent of the first digit of a positive value. -/
def leading (r : Ratio) : Int :=
  Int.ofNat (Nat.toDigits 10 (r.shift 400).floor).length - 401

/-- The neighbour of the float, among the multiples of `10^exponent`, that rounds to it and lies
nearest; of two equally near the one with an even last digit. -/
def nearestOn? (x : Binary) (exponent : Int) : Option Shortened :=
  let value := Ratio.scaled x.significand 2 x.exponent
  let grid := value.shift (-exponent)
  let below := grid.floor
  let above := below + 1
  let fits (d : Nat) : Bool := x.rounds (Ratio.scaled d 10 exponent)
  let nearer :=
    let twice := 2 * grid.num
    let middle := (2 * below + 1) * grid.den
    if twice < middle then below else if middle < twice then above
    else if below % 2 = 0 then below else above
  match fits below, fits above with
  | true, true => some ⟨nearer, exponent⟩
  | true, false => some ⟨below, exponent⟩
  | false, true => some ⟨above, exponent⟩
  | false, false => none

/-- The decimal with the fewest digits that rounds to a positive float; seventeen always do. -/
def shortest (x : Binary) : Shortened :=
  let first := leading (Ratio.scaled x.significand 2 x.exponent)
  ((List.range 17).findSome? fun n => nearestOn? x (first - Int.ofNat n)).getD ⟨0, 0⟩

end ThreeAddress.Decimal
