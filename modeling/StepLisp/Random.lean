namespace StepLisp

-- An order for a number of items: the places from which they are taken, one after the other.
structure Arrangement (n : Nat) where
  places : List Nat
  perm : places.Perm (List.range n)

namespace Arrangement

variable {α : Type} {n : Nat}

instance : Inhabited (Arrangement n) :=
  ⟨⟨List.range n, .refl _⟩⟩

def arrange (a : Arrangement n) (items : List α) : List α :=
  a.places.filterMap (items[·]?)

end Arrangement

-- Where random choices come from. The source has numbered states. A seed leads to one of them, and
-- each choice leads on to another.
structure Randomness where
  seeded : Nat → Nat
  unseeded : Nat
  unit : Nat → Float × Nat
  upTo : Nat → (bound : Nat) → Fin (bound + 1) × Nat
  order : Nat → (count : Nat) → Arrangement count × Nat
  deriving Inhabited

structure Generator where
  source : Randomness
  state : Nat
  deriving Inhabited

namespace Generator

variable {α : Type}

def ofSeed? (source : Randomness) (seed? : Option Nat) : Generator where
  source := source
  state := (seed?.map source.seeded).getD source.unseeded

def reseed (g : Generator) (seed : Nat) : Generator :=
  { g with state := g.source.seeded seed }

def take (g : Generator) (choice : Randomness → Nat → α × Nat) : α × Generator :=
  let (a, state) := choice g.source g.state
  (a, { g with state })

-- A number from zero to one.
def unit (g : Generator) : Float × Generator :=
  g.take (·.unit)

def upTo (g : Generator) (bound : Nat) : Fin (bound + 1) × Generator :=
  g.take (·.upTo · bound)

def order (g : Generator) (count : Nat) : Arrangement count × Generator :=
  g.take (·.order · count)

def shuffle (g : Generator) (items : List α) : List α × Generator :=
  let (order, g) := g.order items.length
  (order.arrange items, g)

end Generator
end StepLisp
