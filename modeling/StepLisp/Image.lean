import StepLisp.Reader
import StepLisp.Store.List
import StepLisp.Store.Scope
import StepLisp.Symbol

namespace StepLisp

structure Image where
  store : Store
  symbols : SymbolTable

namespace Image

@[inline]
def onStore {α : Type} (x : Act Store α) : Act Image α := fun ⟨store, symbols⟩ =>
  match x store with
  | .ok a store => .ok a ⟨store, symbols⟩
  | .error fault store => .error fault ⟨store, symbols⟩

@[inline]
instance : MonadLift (Act Store) (Act Image) where
  monadLift := onStore

def intern (name : String) : Act Image Symbol := fun ⟨store, symbols⟩ =>
  let (x, symbols) := symbols.intern name
  .ok x ⟨store, symbols⟩

def assign (env : FrameId) (x : Symbol) (v : Value) : Act Image Unit := do
  let image ← get
  match ← Act.ofExcept (image.store.binder? env x) with
  | some binder => Store.define binder x v
  | none => throw (.unbound (image.symbols.name x))

-- Data into objects

-- Follows a chain of pairs, with the objects built so far in reverse.
def buildOn (seen : List Value) : Datum → Act Image Value
  | .pair car cdr => do
    let v ← buildOn [] car
    buildOn (v :: seen) cdr
  | .nil => Store.consAll seen .nil
  | .truth => Store.consAll seen .truth
  | .int n => Store.consAll seen (.int n)
  | .float x => Store.consAll seen (.float x)
  | .string text => do
    let v ← Store.allocString text
    Store.consAll seen v
  | .symbol name => do
    let x ← intern name
    Store.consAll seen (.symbol x)

-- The object for a datum. Elements of a list are built from left to right, its cells after them
-- from right to left.
def build (d : Datum) : Act Image Value :=
  buildOn [] d

-- Builds what was complete before a defect, then reports it.
def reject {α : Type} (defect : Defect) : Act Image α := do
  for d in defect.complete do
    discard (build d)
  throw (.unreadable defect.cause)

def buildAll (c : Reader.Contents Datum) : Act Image (List Value) := do
  let values ← c.data.mapM build
  match c.defect with
  | none => return values
  | some defect => reject defect

-- Texts into objects

def read (text : String) : Act Image Value :=
  match Reader.next text.toList with
  | .ok (some (d, _)) => build d
  | .ok none => throw (.unreadable .emptyInput)
  | .error defect => reject defect

def readAll (text : String) : Act Image (List Value) :=
  buildAll (Reader.all text.toList)

def readAt (text : List Char) (pos : Nat) : Act Image (Option (Value × Nat)) :=
  match Reader.nextAt text pos with
  | .ok (some (d, pos)) => do return some (← build d, pos)
  | .ok none => return none
  | .error defect => reject defect

end Image
end StepLisp
