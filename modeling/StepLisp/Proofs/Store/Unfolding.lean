import Mathlib.Data.Fintype.EquivFin
import Mathlib.Logic.Relation
import StepLisp.Proofs.Store.Object

namespace StepLisp

open Relation

-- The tree below a value. Each node knows the pair it comes from.
inductive Tree
  | leaf (v : Value)
  | pair (id : PairId) (car cdr : Tree)

namespace Tree

def size : Tree → Nat
  | leaf _ => 0
  | pair _ car cdr => car.size + cdr.size + 1

def leaves : Tree → List Value
  | leaf v => [v]
  | pair _ car cdr => car.leaves ++ cdr.leaves

end Tree

namespace Store

variable {s : Store} {v w : Value} {t u : Tree} {id : PairId}

-- `Part s v w`: the pair `v` has `w` for its `car` or its `cdr`.
inductive Part (s : Store) : Value → Value → Prop
  | car (id : PairId) : Part s (.pair id) (s.car id)
  | cdr (id : PairId) : Part s (.pair id) (s.cdr id)

-- Every handle below a value has its place in the store.
def Whole (s : Store) (v : Value) : Prop :=
  ∀ w, ReflTransGen s.Part v w → ∀ r ∈ w.refs, (s.content? r).isSome

-- Nothing below a value leads back to itself.
def Acyclic (s : Store) (v : Value) : Prop :=
  ∀ w, ReflTransGen s.Part v w → ¬TransGen s.Part w w

inductive Unfolds (s : Store) : Value → Tree → Prop
  | leaf {v : Value} : v.isPair = false → Unfolds s v (.leaf v)
  | pair {id : PairId} {t u : Tree} :
    Unfolds s (s.car id) t → Unfolds s (s.cdr id) u → Unfolds s (.pair id) (.pair id t u)

theorem Whole.part (h : s.Whole v) (hp : s.Part v w) : s.Whole w :=
  fun _ hw => h _ <| .head hp hw

theorem Whole.lt_totalCells (h : s.Whole (.pair id)) : id.index < s.totalCells := by
  have hs := h _ .refl id.ref (by simp [Value.refs])
  rw [content?, Handle.ref, Option.isSome_map] at hs
  exact (Array.getElem?_eq_some_iff.mp (Option.isSome_iff_exists.mp hs).choose_spec).choose

theorem Whole.exists_string {i : StringId} (h : s.Whole (.string i)) :
    ∃ text, s.string i = .ok text := by
  have hs := h _ .refl i.ref (by simp [Value.refs])
  obtain ⟨_, ho⟩ := Option.isSome_iff_exists.mp hs
  obtain ⟨text, ht, -⟩ := Option.map_eq_some_iff.mp ho
  exact ⟨text, congrArg (present .string i.index) ht⟩

-- Where all handles in cells have their places, so have those below any value.
theorem whole_of_cells (hc : ∀ c ∈ s.cells, ∀ r ∈ c.refs, (s.content? r).isSome)
    (hv : ∀ r ∈ v.refs, (s.content? r).isSome) : s.Whole v := by
  have hd (id : PairId) : ∀ r ∈ (s.cells.getD id.index default).refs, (s.content? r).isSome := by
    rw [Array.getD_eq_getD_getElem?]
    rcases h : s.cells[id.index]? with _ | c
    · exact nofun
    · exact hc c (Array.mem_of_getElem? h)
  intro w hw
  induction hw
  case refl => exact hv
  case tail hp _ =>
    cases hp
    case car => exact fun r hr => hd _ r (List.mem_append_left _ hr)
    case cdr => exact fun r hr => hd _ r (List.mem_append_right _ hr)

theorem Acyclic.part (h : s.Acyclic v) (hp : s.Part v w) : s.Acyclic w :=
  fun _ hw => h _ <| .head hp hw

namespace Unfolds

theorem unique (h : s.Unfolds v t) (h' : s.Unfolds v u) : t = u := by
  induction h generalizing u
  case leaf hv =>
    cases h'
    case leaf => rfl
    case pair => cases hv
  case pair hi hi' =>
    cases h'
    case leaf hv => cases hv
    case pair h h' => rw [hi h, hi' h']

theorem eq_leaf (h : s.Unfolds v (.leaf w)) : v = w := by
  cases h
  rfl

theorem eq_pair (h : s.Unfolds v (.pair id t u)) :
    v = .pair id ∧ s.Unfolds (s.car id) t ∧ s.Unfolds (s.cdr id) u := by
  cases h
  case pair hcar hcdr => exact ⟨rfl, hcar, hcdr⟩

theorem part (h : s.Unfolds v t) (hp : s.Part v w) : ∃ u, s.Unfolds w u ∧ u.size < t.size := by
  cases h
  case leaf hv => cases hp <;> cases hv
  case pair hcar hcdr =>
    cases hp
    case car => exact ⟨_, hcar, by simp only [Tree.size]; omega⟩
    case cdr => exact ⟨_, hcdr, by simp only [Tree.size]; omega⟩

theorem descend (h : s.Unfolds v t) (hw : TransGen s.Part v w) :
    ∃ u, s.Unfolds w u ∧ u.size < t.size := by
  induction hw
  case single hp => exact h.part hp
  case tail hp hi =>
    have ⟨u, hu, hl⟩ := hi
    have ⟨u', hu', hl'⟩ := hu.part hp
    exact ⟨u', hu', Nat.lt_trans hl' hl⟩

theorem acyclic (h : s.Unfolds v t) : s.Acyclic v := by
  intro w hw hc
  have ⟨u, hu⟩ : ∃ u, s.Unfolds w u := by
    obtain rfl | hw := reflTransGen_iff_eq_or_transGen.mp hw
    · exact ⟨t, h⟩
    · exact (h.descend hw).imp fun _ hu => hu.left
  have ⟨u', hu', hl⟩ := hu.descend hc
  rw [hu'.unique hu] at hl
  exact Nat.lt_irrefl _ hl

end Unfolds

-- The pairs of the arena that are below a value, each above those it leads to.
theorem wellFounded_of_acyclic (h : s.Acyclic v) : WellFounded fun i j : Fin s.totalCells =>
    ReflTransGen s.Part v (.pair ⟨j⟩) ∧ TransGen s.Part (.pair ⟨j⟩) (.pair ⟨i⟩) := by
  have : IsTrans (Fin s.totalCells) fun i j =>
      ReflTransGen s.Part v (.pair ⟨j⟩) ∧ TransGen s.Part (.pair ⟨j⟩) (.pair ⟨i⟩) :=
    ⟨fun _ _ _ hi hj => ⟨hj.left, hj.right.trans hi.right⟩⟩
  have : Std.Irrefl fun i j : Fin s.totalCells =>
      ReflTransGen s.Part v (.pair ⟨j⟩) ∧ TransGen s.Part (.pair ⟨j⟩) (.pair ⟨i⟩) :=
    ⟨fun _ hi => h _ hi.left hi.right⟩
  exact Finite.wellFounded_of_trans_of_irrefl _

-- A pair outside the arena has empty parts.
theorem parts_of_le (h : s.totalCells ≤ id.index) : s.car id = .nil ∧ s.cdr id = .nil := by
  have hd : s.cells.getD id.index default = default := by
    simp [Array.getD_eq_getD_getElem?, Array.getElem?_eq_none h]
  exact ⟨congrArg Cell.car hd, congrArg Cell.cdr hd⟩

theorem unfolds_of_le (h : s.totalCells ≤ id.index) :
    s.Unfolds (.pair id) (.pair id (.leaf .nil) (.leaf .nil)) := by
  obtain ⟨hcar, hcdr⟩ := parts_of_le h
  refine .pair ?_ ?_
  · rw [hcar]
    exact .leaf rfl
  · rw [hcdr]
    exact .leaf rfl

theorem exists_unfolds (h : s.Acyclic v) : ∃ t, s.Unfolds v t := by
  have hp (i : Fin s.totalCells) :
      ReflTransGen s.Part v (.pair ⟨i⟩) → ∃ t, s.Unfolds (.pair ⟨i⟩) t := by
    induction i using (wellFounded_of_acyclic h).induction
    case _ i hi =>
      intro hv
      have part (w : Value) (hw : s.Part (.pair ⟨i⟩) w) : ∃ t, s.Unfolds w t := by
        cases w <;> try exact ⟨_, .leaf rfl⟩
        case pair id =>
          by_cases hl : id.index < s.totalCells
          case pos => exact hi ⟨id.index, hl⟩ ⟨hv, .single hw⟩ (hv.tail hw)
          case neg => exact ⟨_, unfolds_of_le (Nat.le_of_not_lt hl)⟩
      have ⟨t, ht⟩ := part _ (.car _)
      have ⟨u, hu⟩ := part _ (.cdr _)
      exact ⟨_, .pair ht hu⟩
  cases v <;> try exact ⟨_, .leaf rfl⟩
  case pair id =>
    by_cases hl : id.index < s.totalCells
    case pos => exact hp ⟨id.index, hl⟩ .refl
    case neg => exact ⟨_, unfolds_of_le (Nat.le_of_not_lt hl)⟩

end Store
end StepLisp
