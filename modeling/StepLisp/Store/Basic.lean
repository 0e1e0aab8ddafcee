import StepLisp.Fault
import StepLisp.Store.Slab

namespace StepLisp

structure Cell where
  car : Value
  cdr : Value
  deriving Inhabited

-- Bindings of one scope, in the order in which they were made.
structure Frame where
  bindings : List (Symbol × Value) := []
  parent : Option FrameId := none

structure Closure where
  params : Value
  body : Value
  env : FrameId
  special : Bool

structure Continuation where
  step : Step
  stack : Stack
  env : FrameId
  special : Bool

-- Objects that only foreign functions understand.
inductive Foreign
  | instant (nanoseconds : Nat)

structure Store where
  cells : Array Cell := #[]
  freeCells : List PairId := []
  strings : Slab String := {}
  frames : Slab Frame := {}
  closures : Slab Closure := {}
  continuations : Slab Continuation := {}
  foreigns : Slab Foreign := {}
  capacity : Nat
  allocations : Nat := 0
  threshold : Nat

namespace Store

-- An empty store that holds up to `capacity` cells and is due for a collection after `threshold`
-- allocations.
def new (capacity threshold : Nat) : Store where
  capacity := capacity
  threshold := max threshold 1

def totalCells (s : Store) : Nat :=
  s.cells.size

def liveCells (s : Store) : Nat :=
  s.cells.size - s.freeCells.length

def liveFrames (s : Store) : Nat :=
  s.frames.live

def isCollectionDue (s : Store) : Bool :=
  s.threshold ≤ s.allocations

-- Pairs

-- A new cell: a free one if there is any, else one more while the capacity lasts.
def alloc (car cdr : Value) : Act Store PairId := fun s =>
  let s := { s with allocations := s.allocations + 1 }
  match s.freeCells with
  | id :: rest =>
    .ok id { s with cells := s.cells.setIfInBounds id.index ⟨car, cdr⟩, freeCells := rest }
  | [] =>
    let n := s.cells.size
    if n < s.capacity then .ok ⟨n⟩ { s with cells := s.cells.push ⟨car, cdr⟩ }
    else .error (.heapExhausted n) s

@[inline]
def cons (car cdr : Value) : Act Store Value := do
  return .pair (← alloc car cdr)

def car (s : Store) (id : PairId) : Value :=
  (s.cells.getD id.index default).car

def cdr (s : Store) (id : PairId) : Value :=
  (s.cells.getD id.index default).cdr

def setCar (s : Store) (id : PairId) (v : Value) : Store :=
  { s with cells := s.cells.modify id.index ({ · with car := v }) }

def setCdr (s : Store) (id : PairId) (v : Value) : Store :=
  { s with cells := s.cells.modify id.index ({ · with cdr := v }) }

-- Other objects

def allocString (text : String) : Act Store Value := fun s =>
  let (i, strings) := s.strings.insert text
  .ok (.string ⟨i⟩) { s with strings, allocations := s.allocations + 1 }

def allocFrame (parent : Option FrameId) : Act Store FrameId := fun s =>
  let (i, frames) := s.frames.insert { parent }
  .ok ⟨i⟩ { s with frames, allocations := s.allocations + 1 }

def allocClosure (c : Closure) : Act Store Value := fun s =>
  let (i, closures) := s.closures.insert c
  .ok (.closure ⟨i⟩) { s with closures, allocations := s.allocations + 1 }

def allocContinuation (k : Continuation) : Act Store Value := fun s =>
  let (i, continuations) := s.continuations.insert k
  .ok (.continuation ⟨i⟩) { s with continuations, allocations := s.allocations + 1 }

def allocForeign (f : Foreign) : Act Store Value := fun s =>
  let (i, foreigns) := s.foreigns.insert f
  .ok (.foreign ⟨i⟩) { s with foreigns, allocations := s.allocations + 1 }

-- An entry that a handle promises to be there.
def present {α : Type} (kind : Kind) (i : Nat) : Option α → Except Fault α
  | some a => .ok a
  | none => .error (.internal (.dangling kind i))

def string (s : Store) (id : StringId) : Except Fault String :=
  present .string id.index (s.strings.get? id.index)

def frame (s : Store) (id : FrameId) : Except Fault Frame :=
  present .frame id.index (s.frames.get? id.index)

def closure (s : Store) (id : ClosureId) : Except Fault Closure :=
  present .closure id.index (s.closures.get? id.index)

def continuation (s : Store) (id : ContinuationId) : Except Fault Continuation :=
  present .continuation id.index (s.continuations.get? id.index)

def foreign (s : Store) (id : ForeignId) : Except Fault Foreign :=
  present .foreign id.index (s.foreigns.get? id.index)

def markClosure (id : ClosureId) : Act Store Unit := fun s =>
  match s.closure id with
  | .ok _ => .ok () { s with closures := s.closures.modify id.index ({ · with special := true }) }
  | .error fault => .error fault s

def markContinuation (id : ContinuationId) : Act Store Unit := fun s =>
  match s.continuation id with
  | .ok _ =>
    .ok () { s with continuations := s.continuations.modify id.index ({ · with special := true }) }
  | .error fault => .error fault s

end Store
end StepLisp
