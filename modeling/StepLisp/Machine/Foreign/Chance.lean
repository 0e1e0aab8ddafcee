import StepLisp.Machine.Foreign.Math

namespace StepLisp

-- Replaces the elements of a list, cell by cell.
def Store.setCars (s : Store) : Value → List Value → Store
  | .pair id, v :: rest =>
    let next := s.cdr id
    (s.setCar id v).setCars next rest
  | _, _ => s

namespace Machine.Chance

@[inline]
def draw {α : Type} (f : Generator → α × Generator) : Run α := fun m =>
  let (a, generator) := f m.generator
  .ok a { m with generator }

def setCars (list : Value) (items : List Value) : Run Unit := fun m =>
  .ok () { m with image := { m.image with store := m.image.store.setCars list items } }

def randint (low high : Int64) : Run Value := do
  if high < low then mistyped (.emptyRandint low high)
  else
    let n ← draw (·.upTo (high.toInt - low.toInt).toNat)
    return .int (Int64.ofInt (low.toInt + n))

def choice (items : List Value) : Run Value := do
  match items with
  | [] => mistyped .emptyChoice
  | first :: rest => return items.getD (← draw (·.upTo rest.length)) first

def shuffle (list : Value) (items : List Value) : Run Value := do
  setCars list (← draw (·.shuffle items))
  return list

def call (function : String) (args : List Value) : Run Value := do
  let arg i := args.getD i .nil
  match function with
  | "random" =>
    foreignArity function 0 args
    return .float (← draw (·.unit))
  | "randint" =>
    foreignArity function 2 args
    let low ← integerArg function (arg 0)
    let high ← integerArg function (arg 1)
    randint low high
  | "uniform" =>
    foreignArity function 2 args
    let a ← numberArg function (arg 0)
    let b ← numberArg function (arg 1)
    return .float (a + (b - a) * (← draw (·.unit)))
  | "choice" =>
    foreignArity function 1 args
    choice (← listArg function (arg 0))
  | "seed" =>
    foreignArity function 1 args
    let seed ← integerArg function (arg 0)
    draw fun g => (.nil, g.reseed seed.toUInt64.toNat)
  | "shuffle" =>
    foreignArity function 1 args
    shuffle (arg 0) (← listArg function (arg 0))
  | _ => noFunction "random" function

end Machine.Chance
end StepLisp
