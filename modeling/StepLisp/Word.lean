namespace StepLisp.Word

def int64? (n : Int) : Option Int64 :=
  if -0x8000000000000000 ≤ n ∧ n ≤ 0x7fffffffffffffff then some (Int64.ofInt n) else none

theorem toInt_of_int64? {n : Int} {x : Int64} (h : int64? n = some x) : x.toInt = n := by
  unfold int64? at h
  split at h
  case isTrue =>
    cases h
    exact Int64.toInt_ofInt_of_le (by omega) (by omega)
  case isFalse => cases h

-- Operations on words. There is no result where the exact one does not fit.

def add? (x y : Int64) : Option Int64 :=
  int64? (x.toInt + y.toInt)

def sub? (x y : Int64) : Option Int64 :=
  int64? (x.toInt - y.toInt)

def mul? (x y : Int64) : Option Int64 :=
  int64? (x.toInt * y.toInt)

def quotient? (x y : Int64) : Option Int64 :=
  if y = 0 then none else int64? (x.toInt.tdiv y.toInt)

def int32? (n : Int) : Option Int32 :=
  if -0x80000000 ≤ n ∧ n ≤ 0x7fffffff then some (Int32.ofInt n) else none

def natural? (n : Nat) : Option Nat :=
  if n ≤ 0xffffffffffffffff then some n else none

def wrap (n : Nat) : Nat :=
  n % 0x10000000000000000

-- The integer of sixty-four bits that is nearest to the given one.
def clamp64 (n : Int) : Int :=
  max (-0x8000000000000000) (min n 0x7fffffffffffffff)

end StepLisp.Word
