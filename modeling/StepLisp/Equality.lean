import Std.Data.TreeSet
import StepLisp.Store.List

namespace StepLisp.Store

def comparePairs (a b : Nat × Nat) : Ordering :=
  (compare a.1 b.1).then (compare a.2 b.2)

abbrev Assumptions := Std.TreeSet (Nat × Nat) comparePairs

def leafEqual (s : Store) : Value → Value → Except Fault Bool
  | .string a, .string b => do return (← s.string a) == (← s.string b)
  | .int n, .float x | .float x, .int n => return Float.ofInt n.toInt == x
  | a, b => return a == b

-- Works off pairs of values that all have to be equal.
def equalFrom (s : Store) : Nat → Assumptions → List (Value × Value) → Except Fault Bool
  | _, _, [] => return true
  | 0, _, _ => .error .endless
  | fuel + 1, seen, (.pair p, .pair q) :: work =>
    if p = q || seen.contains (p.index, q.index) then equalFrom s fuel seen work
    else
      equalFrom s fuel (seen.insert (p.index, q.index))
        ((s.car p, s.car q) :: (s.cdr p, s.cdr q) :: work)
  | fuel + 1, seen, (a, b) :: work => do
    if ← s.leafEqual a b then equalFrom s fuel seen work else return false

-- Whether two values are structurally equal. Each pair of cells is taken apart at most once.
def equal (s : Store) (a b : Value) : Except Fault Bool :=
  let cells := s.totalCells + 1
  s.equalFrom (2 * cells * cells + 1) ∅ [(a, b)]

end StepLisp.Store
