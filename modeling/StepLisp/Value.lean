namespace StepLisp

-- The kinds of objects that live in the store.
inductive Kind
  | pair | string | frame | closure | continuation | foreign
  deriving DecidableEq, Repr

structure Handle (kind : Kind) where
  index : Nat
  deriving DecidableEq, Repr

abbrev PairId := Handle .pair
abbrev StringId := Handle .string
abbrev FrameId := Handle .frame
abbrev ClosureId := Handle .closure
abbrev ContinuationId := Handle .continuation
abbrev ForeignId := Handle .foreign

structure Symbol where
  id : Nat
  deriving DecidableEq, Repr

structure BuiltinId where
  index : Nat
  deriving DecidableEq, Repr

inductive Value
  | nil
  | truth
  | int (n : Int64)
  | float (x : Float)
  | string (id : StringId)
  | symbol (name : Symbol)
  | pair (id : PairId)
  | builtin (id : BuiltinId)
  | closure (id : ClosureId)
  | continuation (id : ContinuationId)
  | foreign (id : ForeignId)
  deriving BEq, Repr, Inhabited

namespace Value

def isNil : Value → Bool
  | nil => true
  | _ => false

def isPair : Value → Bool
  | pair _ => true
  | _ => false

def isAtom (v : Value) : Bool :=
  !v.isPair

-- The values a list can continue with.
def isListLike : Value → Bool
  | nil | pair _ => true
  | _ => false

def isProcedure : Value → Bool
  | builtin _ | closure _ | continuation _ => true
  | _ => false

def pair? : Value → Option PairId
  | pair id => some id
  | _ => none

def symbol? : Value → Option Symbol
  | symbol name => some name
  | _ => none

def int? : Value → Option Int64
  | int n => some n
  | _ => none

def number? : Value → Option Float
  | int n => some (Float.ofInt n.toInt)
  | float x => some x
  | _ => none

def ofBool (b : Bool) : Value :=
  if b then truth else nil

end Value
end StepLisp
