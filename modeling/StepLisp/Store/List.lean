import StepLisp.Store.Basic

namespace StepLisp.Store

-- The `car` of a value, where the empty list counts as a pair of empty lists.
def carOf (s : Store) : Value → Except Fault Value
  | .nil => .ok .nil
  | .pair id => .ok (s.car id)
  | _ => .error (.mistyped .carOfAtom)

def cdrOf (s : Store) : Value → Except Fault Value
  | .nil => .ok .nil
  | .pair id => .ok (s.cdr id)
  | _ => .error (.mistyped .cdrOfAtom)

@[inline]
def uncons? (s : Store) : Value → Option (Value × Value)
  | .pair id => some (s.car id, s.cdr id)
  | _ => none

-- Puts values in front of a list, the last of them innermost.
def consAll : List Value → Value → Act Store Value
  | [], tail => pure tail
  | v :: rest, tail => do consAll rest (← cons v tail)

def list (values : List Value) : Act Store Value :=
  consAll values.reverse .nil

-- Follows at most `fuel` pairs, with the elements met so far in reverse.
def collectList (s : Store) : Nat → List Value → Value → Option (List Value)
  | _, seen, .nil => some seen.reverse
  | fuel + 1, seen, .pair id => collectList s fuel (s.car id :: seen) (s.cdr id)
  | _, _, _ => none

-- The elements of a proper list. A chain that is longer than the arena runs in a cycle.
def toList? (s : Store) (v : Value) : Option (List Value) :=
  s.collectList (s.totalCells + 1) [] v

end StepLisp.Store
