import StepLisp.Store.Scope

namespace StepLisp

structure Ref where
  kind : Kind
  index : Nat
  deriving DecidableEq, Repr

def Handle.ref {kind : Kind} (h : Handle kind) : Ref :=
  ⟨kind, h.index⟩

def Value.refs : Value → List Ref
  | string id => [id.ref]
  | pair id => [id.ref]
  | closure id => [id.ref]
  | continuation id => [id.ref]
  | foreign id => [id.ref]
  | nil | truth | int _ | float _ | symbol _ | builtin _ => []

def Step.refs : Step → List Ref
  | apply proc => proc.refs
  | _ => []

def Slot.refs : Slot → List Ref
  | value v => v.refs
  | env e => [e.ref]
  | step s => s.refs
  | callee (.proc v) => v.refs
  | callee (.foreign ..) | sentinel => []
  | trap c => c.env.ref :: c.cont.refs

def Cell.refs (c : Cell) : List Ref :=
  c.car.refs ++ c.cdr.refs

def Frame.refs (f : Frame) : List Ref :=
  f.values.flatMap Value.refs ++ f.parent.toList.map Handle.ref

def Closure.refs (c : Closure) : List Ref :=
  c.params.refs ++ c.body.refs ++ [c.env.ref]

def Continuation.refs (k : Continuation) : List Ref :=
  k.stack.slots.flatMap Slot.refs ++ k.step.refs ++ [k.env.ref]

namespace Store

def refsOf {α : Type} (refs : α → List Ref) : Option α → List Ref
  | some a => refs a
  | none => []

def refs (s : Store) (r : Ref) : List Ref :=
  match r.kind with
  | .pair => refsOf Cell.refs s.cells[r.index]?
  | .frame => refsOf Frame.refs (s.frames.get? r.index)
  | .closure => refsOf Closure.refs (s.closures.get? r.index)
  | .continuation => refsOf Continuation.refs (s.continuations.get? r.index)
  | .string | .foreign => []

inductive Reachable (s : Store) (roots : List Ref) : Ref → Prop
  | root {r : Ref} : r ∈ roots → Reachable s roots r
  | step {r r' : Ref} : Reachable s roots r → r' ∈ s.refs r → Reachable s roots r'

end Store

-- One flag for every place of the arena and of the slabs.
structure Marks where
  pairs : Array Bool
  strings : Array Bool
  frames : Array Bool
  closures : Array Bool
  continuations : Array Bool
  foreigns : Array Bool

namespace Marks

def none (s : Store) : Marks where
  pairs := .replicate s.cells.size false
  strings := .replicate s.strings.entries.size false
  frames := .replicate s.frames.entries.size false
  closures := .replicate s.closures.entries.size false
  continuations := .replicate s.continuations.entries.size false
  foreigns := .replicate s.foreigns.entries.size false

def flags (m : Marks) : Kind → Array Bool
  | .pair => m.pairs
  | .string => m.strings
  | .frame => m.frames
  | .closure => m.closures
  | .continuation => m.continuations
  | .foreign => m.foreigns

def isDone (m : Marks) (r : Ref) : Bool :=
  (m.flags r.kind).getD r.index true

def mark (m : Marks) (r : Ref) : Marks :=
  match r.kind with
  | .pair => { m with pairs := m.pairs.setIfInBounds r.index true }
  | .string => { m with strings := m.strings.setIfInBounds r.index true }
  | .frame => { m with frames := m.frames.setIfInBounds r.index true }
  | .closure => { m with closures := m.closures.setIfInBounds r.index true }
  | .continuation => { m with continuations := m.continuations.setIfInBounds r.index true }
  | .foreign => { m with foreigns := m.foreigns.setIfInBounds r.index true }

end Marks

namespace Store

-- The number of places that can be marked.
def places (s : Store) : Nat :=
  s.cells.size + s.strings.entries.size + s.frames.entries.size + s.closures.entries.size +
    s.continuations.entries.size + s.foreigns.entries.size

-- Marks what the worklist leads to. Every round marks one more place, so as many rounds as there
-- are places are enough.
def traceFrom (s : Store) : Nat → List Ref → Marks → Marks
  | 0, _, marks => marks
  | rounds + 1, work, marks =>
    match work.dropWhile marks.isDone with
    | [] => marks
    | r :: rest => traceFrom s rounds (s.refs r ++ rest) (marks.mark r)

def trace (s : Store) (roots : List Ref) : Marks :=
  s.traceFrom s.places roots (.none s)

end Store
end StepLisp
