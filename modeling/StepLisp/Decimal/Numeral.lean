import StepLisp.Word

namespace StepLisp.Numeral

def isDigit (c : Char) : Bool :=
  '0' ≤ c && c ≤ '9'

def valueOf (digits : List Char) : Nat :=
  digits.foldl (fun n c => 10 * n + (c.toNat - '0'.toNat)) 0

def digits? (cs : List Char) : Option Nat :=
  if !cs.isEmpty && cs.all isDigit then some (valueOf cs) else none

-- Whether there is a minus sign, and what follows the sign.
def splitSign : List Char → Bool × List Char
  | '-' :: cs => (true, cs)
  | '+' :: cs => (false, cs)
  | cs => (false, cs)

def integer? (cs : List Char) : Option Int :=
  let (negative, rest) := splitSign cs
  (digits? rest).map fun n => if negative then -(n : Int) else n

def int64? (cs : List Char) : Option Int64 :=
  (integer? cs).bind Word.int64?

def word? : List Char → Option Nat
  | '+' :: cs => (digits? cs).bind Word.natural?
  | cs => (digits? cs).bind Word.natural?

-- The exponent part of a double, absent or complete.
def exponent? : List Char → Option Int
  | [] => some 0
  | c :: cs => if c = 'e' ∨ c = 'E' then integer? cs else none

def scientific (m : Nat) (e : Int) : Float :=
  if 0 ≤ e then Float.ofScientific m false e.toNat else Float.ofScientific m true (-e).toNat

def magnitude? (cs : List Char) : Option Float :=
  let (whole, rest) := cs.span isDigit
  let (places, rest) := match rest with
    | '.' :: rest => rest.span isDigit
    | rest => ([], rest)
  if whole.isEmpty && places.isEmpty then none
  else (exponent? rest).map fun e => scientific (valueOf (whole ++ places)) (e - places.length)

def special? (cs : List Char) : Option Float :=
  match String.ofList (cs.map Char.toLower) with
  | "inf" | "infinity" => some (1.0 / 0.0)
  | "nan" => some (0.0 / 0.0)
  | _ => none

def float? (cs : List Char) : Option Float :=
  let (negative, rest) := splitSign cs
  (special? rest <|> magnitude? rest).map fun x => if negative then -x else x

end StepLisp.Numeral
