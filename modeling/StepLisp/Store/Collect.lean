import StepLisp.Store.Trace
import StepLisp.Word

namespace StepLisp

-- What a collection achieved.
structure Collection where
  cellsFreed : Nat
  objectsFreed : Nat
  cellsLive : Nat
  deriving DecidableEq, Repr

namespace Store

-- The free cells after a sweep, the highest first.
def unmarkedCells (s : Store) (marks : Marks) : List PairId :=
  s.cells.size.fold (fun i _ free => if marks.pairs.getD i true then free else ⟨i⟩ :: free) []

def sweep (s : Store) (marks : Marks) : Store :=
  { s with
    cells := s.cells.mapIdx fun i c => if marks.pairs.getD i true then c else ⟨.nil, .nil⟩
    freeCells := s.unmarkedCells marks
    strings := s.strings.sweep (marks.strings.getD · true)
    frames := s.frames.sweep (marks.frames.getD · true)
    closures := s.closures.sweep (marks.closures.getD · true)
    continuations := s.continuations.sweep (marks.continuations.getD · true)
    foreigns := s.foreigns.sweep (marks.foreigns.getD · true) }

-- The number of slab entries that are not in use.
def freeObjects (s : Store) : Nat :=
  s.strings.free.length + s.frames.free.length + s.closures.free.length +
    s.continuations.free.length + s.foreigns.free.length

-- The allocations to wait for after a sweep: twice as many if more than three quarters of the cells
-- are in use. The count is a word of sixty-four bits, so doubling loses its highest bit.
def nextThreshold (s : Store) : Nat :=
  if 3 * s.totalCells < 4 * s.liveCells then min (Word.wrap (2 * s.threshold)) (max s.capacity 1)
  else s.threshold

def collect (s : Store) (roots : List Ref) : Collection × Store :=
  let swept := s.sweep (s.trace roots)
  let collection := {
    cellsFreed := swept.freeCells.length
    objectsFreed := swept.freeObjects - s.freeObjects
    cellsLive := swept.liveCells
  }
  (collection, { swept with allocations := 0, threshold := swept.nextThreshold })

end Store
end StepLisp
