import StepLisp.Decimal.Binary64

namespace StepLisp

structure Decimal where
  digits : Nat
  exponent : Int
  deriving DecidableEq, Repr

namespace Decimal

def digitCount (n : Nat) : Nat :=
  (Nat.toDigits 10 n).length

-- The numbers that round to a double, on the scale on which they are whole.
structure Interval where
  low : Nat
  middle : Nat
  high : Nat
  closed : Bool

def Interval.scale (i : Interval) (k : Nat) : Interval where
  low := i.low * k
  middle := i.middle * k
  high := i.high * k
  closed := i.closed

def Interval.contains (i : Interval) (n : Nat) : Bool :=
  if i.closed then i.low ≤ n && n ≤ i.high else i.low < n && n < i.high

-- The multiple of `unit` in the interval that is nearest to its middle. Only the two neighbours of
-- the middle have to be looked at: if any multiple is in the interval, one of them is.
def Interval.nearest? (i : Interval) (unit : Nat) : Option Nat :=
  let n := i.middle / unit
  let below := i.contains (n * unit)
  let above := i.contains ((n + 1) * unit)
  if below && above then
    if i.middle - n * unit < (n + 1) * unit - i.middle then some n else some (n + 1)
  else if below then some n
  else if above then some (n + 1)
  else none

-- The doubles' spacing is halved just below a power of two, so the lower half of the interval is
-- shorter there. The unit is a quarter of the double's last place.
def interval (m : Nat) (e : Int) : Interval where
  low := 4 * m - if m = 0x10000000000000 ∧ -1074 < e then 1 else 2
  middle := 4 * m
  high := 4 * m + 2
  closed := m % 2 = 0

-- The place of the leading digit: `10 ^ (k - 1) ≤ num / den < 10 ^ k`.
def magnitude (num den : Nat) : Int :=
  if den ≤ num then
    digitCount (num / den)
  else
    let d := digitCount (den / num)
    if den ≤ num * Nat.pow 10 (d - 1) then 2 - (d : Int) else 1 - (d : Int)

-- Tries the grids of `count`, `count + 1`, ... digits below the place `k` in turn.
def search (i : Interval) (den : Nat) (k : Int) (count : Nat) : Nat → Decimal
  | 0 => ⟨i.middle / den, 0⟩
  | fuel + 1 =>
    let e := k - count
    let grid := if 0 ≤ e then i else i.scale (Nat.pow 10 (-e).toNat)
    let unit := if 0 ≤ e then den * Nat.pow 10 e.toNat else den
    match grid.nearest? unit with
    | some n => if n = Nat.pow 10 count then ⟨1, k⟩ else ⟨n, e⟩
    | none => search i den k (count + 1) fuel

-- The shortest decimal for the positive double `m * 2 ^ e`. Seventeen digits always do.
def shortest (m : Nat) (e : Int) : Decimal :=
  let up := Nat.pow 2 (e - 2).toNat
  let den := Nat.pow 2 (2 - e).toNat
  let i := (interval m e).scale up
  search i den (magnitude i.middle den) 1 17

def toText (d : Decimal) : String :=
  let digits := Nat.toDigits 10 d.digits
  let point : Int := digits.length + d.exponent
  String.ofList <|
    if point ≤ 0 then
      '0' :: '.' :: List.replicate (-point).toNat '0' ++ digits
    else if digits.length ≤ point.toNat then
      digits ++ List.replicate (point.toNat - digits.length) '0'
    else
      digits.take point.toNat ++ '.' :: digits.drop point.toNat

end Decimal

-- The text of a double: shortest digits, never an exponent, no point on whole numbers.
def Binary64.toText : Binary64 → String
  | nan => "NaN"
  | infinite negative => if negative then "-inf" else "inf"
  | finite negative m e =>
    let magnitude := if m = 0 then "0" else (Decimal.shortest m e).toText
    if negative then "-" ++ magnitude else magnitude

end StepLisp
