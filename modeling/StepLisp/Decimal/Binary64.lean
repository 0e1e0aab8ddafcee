namespace StepLisp

inductive Binary64
  | nan
  | infinite (negative : Bool)
  | finite (negative : Bool) (mantissa : Nat) (exponent : Int)
  deriving DecidableEq, Repr

namespace Binary64

def ofBits (bits : Nat) : Binary64 :=
  let negative := (bits >>> 63) % 2 == 1
  let exponent : Nat := (bits >>> 52) % 2048
  let fraction := bits % 0x10000000000000
  if exponent = 2047 then
    if fraction = 0 then infinite negative else nan
  else if exponent = 0 then
    finite negative fraction (-1074)
  else
    finite negative (0x10000000000000 + fraction) (exponent - 1075)

def ofFloat (x : Float) : Binary64 :=
  ofBits x.toBits.toNat

-- The number `m * 2 ^ e`, brought to a whole number by `div`.
def scaled (div : Int → Int → Int) (m e : Int) : Int :=
  if 0 ≤ e then m * Nat.pow 2 e.toNat else div m (Nat.pow 2 (-e).toNat)

def toInt? (div : Int → Int → Int) : Binary64 → Option Int
  | finite negative m e => some (scaled div (if negative then -m else m) e)
  | _ => none

def floor? : Binary64 → Option Int :=
  toInt? Int.fdiv

def ceil? : Binary64 → Option Int :=
  toInt? fun m d => -(Int.fdiv (-m) d)

def trunc? : Binary64 → Option Int :=
  toInt? Int.tdiv

end Binary64
end StepLisp
