namespace StepLisp

structure Slab (α : Type) where
  entries : Array (Option α) := #[]
  free : List Nat := []

namespace Slab

variable {α : Type}

def insert (s : Slab α) (a : α) : Nat × Slab α :=
  match s.free with
  | i :: rest => (i, { entries := s.entries.setIfInBounds i (some a), free := rest })
  | [] => (s.entries.size, { entries := s.entries.push (some a), free := [] })

def get? (s : Slab α) (i : Nat) : Option α :=
  s.entries[i]?.join

def modify (s : Slab α) (i : Nat) (f : α → α) : Slab α :=
  { s with entries := s.entries.modify i (Option.map f) }

def live (s : Slab α) : Nat :=
  s.entries.size - s.free.length

-- The numbers of the entries that `keep` gives up.
def dropped (s : Slab α) (keep : Nat → Bool) : List Nat :=
  (List.range s.entries.size).filter fun i => (s.get? i).isSome && !keep i

def sweep (s : Slab α) (keep : Nat → Bool) : Slab α where
  entries := s.entries.mapIdx fun i entry => if keep i then entry else none
  free := (s.dropped keep).reverse ++ s.free

end Slab
end StepLisp
