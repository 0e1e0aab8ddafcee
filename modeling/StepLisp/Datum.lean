namespace StepLisp

inductive Datum
  | nil
  | truth
  | int (n : Int64)
  | float (x : Float)
  | string (text : String)
  | symbol (name : String)
  | pair (car cdr : Datum)
  deriving Repr, Inhabited

namespace Datum

def list (elements : List Datum) (tail : Datum) : Datum :=
  elements.foldr pair tail

def tagged (name : String) (d : Datum) : Datum :=
  pair (symbol name) (pair d nil)

end Datum
end StepLisp
