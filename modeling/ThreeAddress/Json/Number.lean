import ThreeAddress.Decimal.Shortest
/-!
# JSON numbers

A number written without fraction and exponent is an integer if it fits into 64 bits, signed or
not; any other number is a float. `Number.read?` is the grammar and the value of a literal, and
`Number.text` writes a number so that it reads back: an integer in decimal, a float with its
shortest digits.
-/

namespace ThreeAddress

namespace Json

/-- The value of a number. -/
inductive Number where
  | integer (n : Int)
  | real (x : Float)
deriving Repr

instance : Inhabited Number := ⟨.integer 0⟩

end Json

namespace Json.Number

/-! ## Literals -/

/-- A number as it is written. -/
structure Literal where
  negative : Bool
  /-- The digits before the point. -/
  whole : List Nat
  /-- The digits after the point. -/
  fraction? : Option (List Nat)
  exponent? : Option Int
deriving DecidableEq, Repr

/-- The value of an ASCII digit. -/
def digit (c : Char) : Nat := c.toNat - '0'.toNat

/-- The digits at the head of a text, and what follows. -/
def digits (cs : List Char) : List Nat × List Char :=
  ((cs.takeWhile Char.isDigit).map digit, cs.dropWhile Char.isDigit)

def ofDigits (ds : List Nat) : Nat := ds.foldl (fun n d => 10 * n + d) 0

/-- The exponent part of a literal, up to its end. -/
def readExponent? (cs : List Char) : Option Int :=
  let (sign, cs) : Int × List Char := match cs with
    | '-' :: cs => (-1, cs)
    | '+' :: cs => (1, cs)
    | cs => (1, cs)
  match digits cs with
  | ([], _) => none
  | (ds, []) => some (sign * ofDigits ds)
  | _ => none

/-- Takes a literal apart. At least one digit stands before the point, after it and in the
exponent, and a whole part of several digits does not start with zero. -/
def Literal.ofChars? (cs : List Char) : Option Literal := do
  let (negative, cs) := match cs with
    | '-' :: cs => (true, cs)
    | cs => (false, cs)
  let (whole, cs) := digits cs
  guard (!whole.isEmpty && (whole.head? != some 0 || whole.length == 1))
  let (fraction?, cs) ← match cs with
    | '.' :: cs =>
      match digits cs with
      | ([], _) => none
      | (ds, cs) => some (some ds, cs)
    | cs => some (none, cs)
  let exponent? ← match cs with
    | [] => some none
    | c :: cs => if c = 'e' || c = 'E' then (readExponent? cs).map some else none
  return ⟨negative, whole, fraction?, exponent?⟩

/-! ## Values -/

/-- Appends digits to a significand while it stays below `2^64`; gives the digits left over. -/
def absorb (n : Nat) : List Nat → Nat × List Nat
  | [] => (n, [])
  | d :: ds => if 10 * n + d < UInt64.size then absorb (10 * n + d) ds else (n, d :: ds)

/-- The power `10^e`, for the exponents that a float can hold. -/
def powerOfTen (e : Nat) : Float := Float.ofScientific 1 false e

/-- The value `x · 10^e` of an `x` below `2^64`, `none` where it is no finite float. One power of
ten multiplies or divides; below its range `10^308` divides first. -/
def scale? (x : Float) (e : Int) : Option Float :=
  if x == 0 then some x
  else if 308 < e then none
  else if 0 ≤ e then
    let y := x * powerOfTen e.toNat
    if y.isInf then none else some y
  else if -308 ≤ e then some (x / powerOfTen (-e).toNat)
  else if -616 ≤ e then some (x / powerOfTen 308 / powerOfTen (-(e + 308)).toNat)
  else some 0

/-- The value of a literal. A significand keeps the digits that fit into 64 bits: of those left
over, the ones before the point count as powers of ten and the ones after it not at all. -/
def Literal.value? (l : Literal) : Option Number :=
  let (wholePart, spare) := absorb 0 l.whole
  let (significand, dropped) := absorb wholePart (l.fraction?.getD [])
  let exponent : Int := spare.length - ((l.fraction?.getD []).length - dropped.length : Nat) +
    l.exponent?.getD 0
  let x := significand.toUInt64.toFloat
  let real := (scale? x exponent).map fun y => real (if l.negative then -y else y)
  if l.fraction?.isSome || l.exponent?.isSome || !spare.isEmpty then real
  else if !l.negative then some (integer significand)
  else if 1 ≤ significand && significand ≤ 1 <<< 63 then some (integer (-significand))
  else real

/-- The number that a text spells. -/
def read? (cs : List Char) : Option Number :=
  (Literal.ofChars? cs).bind Literal.value?

/-- The value as a signed 64-bit integer. -/
def int64? : Number → Option Int64
  | integer n => if Int64.minValue.toInt ≤ n && n ≤ Int64.maxValue.toInt then some (Int64.ofInt n) else none
  | real _ => none

/-! ## Text -/

/-- Places a point among the digits of a value whose first digit counts `10^e`. Exponents from -5
to 15 are written out and keep at least one digit after the point; others are spelled, with a sign
and two digits. -/
def place (ds : List Char) (e : Int) : List Char :=
  if 0 ≤ e && e ≤ 15 then
    let n := e.toNat + 1
    ds.take n ++ List.replicate (n - ds.length) '0' ++ '.' ::
      (if ds.length ≤ n then ['0'] else ds.drop n)
  else if -5 ≤ e && e < 0 then
    '0' :: '.' :: List.replicate ((-e).toNat - 1) '0' ++ ds
  else
    let spelled := Nat.toDigits 10 e.natAbs
    ds.take 1 ++ (if ds.length ≤ 1 then [] else '.' :: ds.drop 1) ++
      ['e', if e < 0 then '-' else '+'] ++ List.replicate (2 - spelled.length) '0' ++ spelled

/-- The text of a finite float. -/
def realText (x : Float) : String :=
  let sign := if x.toBits.toNat >>> 63 = 1 then ['-'] else []
  let binary := Decimal.Binary.ofFloat x
  if binary.significand = 0 then String.ofList (sign ++ ['0', '.', '0'])
  else
    let d := Decimal.shortest binary
    let spelled := Nat.toDigits 10 d.digits
    let ds := (spelled.reverse.dropWhile (· == '0')).reverse
    String.ofList (sign ++ place ds (d.exponent + spelled.length - 1))

def text : Number → String
  | integer n => toString n
  | real x => realText x

end Json.Number

end ThreeAddress
