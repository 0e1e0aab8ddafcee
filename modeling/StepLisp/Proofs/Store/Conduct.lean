import StepLisp.Machine.Execute
import StepLisp.Proofs.Store.Chain
import StepLisp.Proofs.Symbols

namespace StepLisp

open Act

namespace Store

variable {s s' s'' : Store} {walks : Prop}

-- Lookups

theorem ancestor_proper {env : FrameId} {n : Nat} : Proper walks (s.ancestor env n) := by
  fun_induction ancestor s env n
  case case1 => exact .ok
  case case2 hi =>
    refine Proper.present.bind fun f => ?_
    split
    case h_1 p _ => exact hi p
    case h_2 => exact .error rfl

theorem carOf_proper {v : Value} : Proper walks (s.carOf v) := by
  unfold carOf
  split
  case h_3 => exact .error rfl
  all_goals exact .ok

theorem cdrOf_proper {v : Value} : Proper walks (s.cdrOf v) := by
  unfold cdrOf
  split
  case h_3 => exact .error rfl
  all_goals exact .ok

theorem leafEqual_proper {v w : Value} : Proper walks (s.leafEqual v w) := by
  unfold leafEqual
  split
  case h_1 => exact Proper.present.bind fun _ => Proper.present.bind fun _ => .ok
  all_goals exact .ok

theorem equal_proper {v w : Value} : Proper True (s.equal v w) := by
  unfold equal
  simp only
  generalize 2 * (s.totalCells + 1) * (s.totalCells + 1) + 1 = fuel, [(v, w)] = work
  generalize (∅ : Assumptions) = seen
  fun_induction equalFrom s fuel seen work
  case case1 => exact .ok
  case case2 =>
    rintro _ ⟨⟩
    exact .endless trivial
  case case3 hi => exact hi
  case case4 hi => exact hi
  case case5 hi =>
    refine leafEqual_proper.bind fun b => ?_
    cases b
    case true => exact hi
    case false => exact .ok

-- Growth

-- There is a cell for one more pair.
def HasRoom (s : Store) : Prop :=
  s.freeCells ≠ [] ∨ s.totalCells < s.capacity

theorem alloc_of_hasRoom {a b : Value} (h : s.HasRoom) :
    ∃ id s', alloc a b s = .ok id s' := by
  unfold alloc
  simp only
  split
  case h_1 => exact ⟨_, _, rfl⟩
  case h_2 hf => exact ⟨_, _, if_pos <| h.resolve_left fun hn => hn hf⟩

theorem alloc_of_not_hasRoom {a b : Value} (h : ¬s.HasRoom) :
    alloc a b s =
      .error (.heapExhausted s.totalCells) { s with allocations := s.allocations + 1 } := by
  have ⟨hf, hn⟩ := not_or.mp h
  simp only [alloc, Classical.not_not.mp hf]
  exact if_neg hn

-- Cells are only taken, never given back, and whatever is taken is counted. There are no more of
-- them than the capacity allows.
structure Grows (s s' : Store) : Prop where
  capacity_eq : s'.capacity = s.capacity
  threshold_eq : s'.threshold = s.threshold
  liveCells_le : s.liveCells ≤ s'.liveCells
  counted : s'.liveCells + s.allocations ≤ s.liveCells + s'.allocations
  totalCells_le : s'.totalCells ≤ max s.totalCells s.capacity

namespace Grows

theorem refl (s : Store) : s.Grows s :=
  ⟨rfl, rfl, Nat.le_refl _, Nat.le_refl _, Nat.le_max_left ..⟩

theorem trans (h : s.Grows s') (h' : s'.Grows s'') : s.Grows s'' where
  capacity_eq := h'.capacity_eq.trans h.capacity_eq
  threshold_eq := h'.threshold_eq.trans h.threshold_eq
  liveCells_le := Nat.le_trans h.liveCells_le h'.liveCells_le
  counted := by
    have := h.counted
    have := h'.counted
    omega
  totalCells_le := by
    have := h.totalCells_le
    have := h'.totalCells_le
    have := h.capacity_eq
    omega

-- No cell is taken.
theorem of_cells (hc : s'.capacity = s.capacity) (ht : s'.threshold = s.threshold)
    (hs : s'.cells.size = s.cells.size) (hf : s'.freeCells = s.freeCells)
    (ha : s.allocations ≤ s'.allocations) : s.Grows s' := by
  have hl : s'.liveCells = s.liveCells := by rw [liveCells, liveCells, hs, hf]
  have ht' : s'.totalCells = s.totalCells := hs
  exact ⟨hc, ht, Nat.le_of_eq hl.symm, by omega, by omega⟩

end Grows

structure Evolves (s s' : Store) : Prop extends Grows s s' where
  continuations_eq : s'.continuations = s.continuations
  parents_eq : s'.parents = s.parents

theorem Evolves.refl (s : Store) : s.Evolves s :=
  ⟨.refl s, rfl, rfl⟩

theorem Evolves.trans (h : s.Evolves s') (h' : s'.Evolves s'') : s.Evolves s'' :=
  ⟨h.toGrows.trans h'.toGrows, h'.continuations_eq.trans h.continuations_eq,
    h'.parents_eq.trans h.parents_eq⟩

-- There may be walks without end where that is said, and where scopes are not as they should be.
def conduct (walks : Prop) : Rule Store where
  allows := Evolves
  admits fault s := fault.Admitted (walks ∨ ¬s.Scoped) ¬s.HasRoom
  refl := .refl
  trans := .trans

-- Cells

theorem alloc_grows {car cdr : Value} {id : PairId} (h : alloc car cdr s = .ok id s') :
    s.Grows s' := by
  simp only [alloc] at h
  split at h
  case h_1 rest hf =>
    cases h
    refine ⟨rfl, rfl, ?_, ?_, ?_⟩ <;> simp [liveCells, totalCells, hf] <;> omega
  case h_2 hf =>
    split at h <;> cases h
    refine ⟨rfl, rfl, ?_, ?_, ?_⟩ <;> simp [liveCells, totalCells, hf] <;> omega

theorem alloc_obeys {car cdr : Value} : Obeys (conduct walks) (alloc car cdr) := by
  intro s
  by_cases hs : s.HasRoom
  case pos =>
    have ⟨id, s', ha⟩ := alloc_of_hasRoom (a := car) (b := cdr) hs
    rw [ha]
    refine ⟨alloc_grows ha, ?_, ?_⟩
    all_goals
      simp only [alloc] at ha
      split at ha
      case h_1 => cases ha; rfl
      case h_2 => split at ha <;> cases ha; rfl
  case neg =>
    rw [alloc_of_not_hasRoom hs]
    exact ⟨⟨.of_cells rfl rfl rfl rfl (Nat.le_succ _), rfl, rfl⟩, .exhausted hs⟩

theorem cons_obeys {car cdr : Value} : Obeys (conduct walks) (cons car cdr) :=
  alloc_obeys.bind fun _ => .pure _

theorem consAll_obeys {vs : List Value} {tail : Value} :
    Obeys (conduct walks) (consAll vs tail) := by
  induction vs generalizing tail
  case nil => exact .pure _
  case cons hi => exact cons_obeys.bind fun _ => hi

theorem list_obeys {vs : List Value} : Obeys (conduct walks) (list vs) :=
  consAll_obeys

theorem setCar_evolves {id : PairId} {v : Value} : s.Evolves (s.setCar id v) :=
  ⟨.of_cells rfl rfl (by simp [setCar]) rfl (Nat.le_refl _), rfl, rfl⟩

theorem setCdr_evolves {id : PairId} {v : Value} : s.Evolves (s.setCdr id v) :=
  ⟨.of_cells rfl rfl (by simp [setCdr]) rfl (Nat.le_refl _), rfl, rfl⟩

-- Other objects

theorem allocString_obeys {text : String} : Obeys (conduct walks) (allocString text) :=
  fun _ => ⟨.of_cells rfl rfl rfl rfl (Nat.le_succ _), rfl, rfl⟩

theorem allocClosure_obeys {c : Closure} : Obeys (conduct walks) (allocClosure c) :=
  fun _ => ⟨.of_cells rfl rfl rfl rfl (Nat.le_succ _), rfl, rfl⟩

theorem allocForeign_obeys {f : Foreign} : Obeys (conduct walks) (allocForeign f) :=
  fun _ => ⟨.of_cells rfl rfl rfl rfl (Nat.le_succ _), rfl, rfl⟩

theorem define_obeys {env : FrameId} {x : Symbol} {v : Value} :
    Obeys (conduct walks) (define env x v) := by
  intro s
  simp only [define]
  cases h : s.frame env
  case error fault => exact ⟨.refl s, Proper.present.admitted h⟩
  case ok =>
    refine ⟨.of_cells rfl rfl rfl rfl (Nat.le_refl _), rfl, ?_⟩
    funext i
    simp only [parents, Slab.get?, Slab.modify, Array.getElem?_modify]
    split
    case isTrue =>
      cases s.frames.entries[i]? <;> simp [Option.map_map, Function.comp_def, Frame.define]
    case isFalse => rfl

theorem markClosure_obeys {id : ClosureId} : Obeys (conduct walks) (markClosure id) := by
  intro s
  simp only [markClosure]
  cases h : s.closure id
  case ok => exact ⟨.of_cells rfl rfl rfl rfl (Nat.le_refl _), rfl, rfl⟩
  case error fault => exact ⟨.refl s, Proper.present.admitted h⟩

end Store

namespace Image

variable {α : Type} {walks : Prop}

-- The store evolves, and names are only added to the table.
structure Evolves (i i' : Image) : Prop where
  store : i.store.Evolves i'.store
  symbols : i.symbols.Becomes i'.symbols

namespace Evolves

variable {i i' i'' : Image}

theorem refl (i : Image) : i.Evolves i :=
  ⟨.refl _, .refl _⟩

theorem trans (h : i.Evolves i') (h' : i'.Evolves i'') : i.Evolves i'' :=
  ⟨h.store.trans h'.store, h.symbols.trans h'.symbols⟩

theorem of_store {s : Store} (h : i.store.Evolves s) : i.Evolves { i with store := s } :=
  ⟨h, .refl _⟩

end Evolves

def conduct (walks : Prop) : Rule Image where
  allows := Evolves
  admits fault i := (Store.conduct walks).admits fault i.store
  refl := .refl
  trans := .trans

theorem onStore_of_ok {x : Act Store α} {i : Image} {a : α} {s : Store}
    (h : x i.store = .ok a s) : (liftM x : Act Image α) i = .ok a { i with store := s } := by
  show onStore x i = _
  simp only [onStore, h]

theorem onStore_obeys {x : Act Store α} (h : Obeys (Store.conduct walks) x) :
    Obeys (conduct walks) (onStore x) := by
  intro i
  have := h i.store
  simp only [onStore]
  cases hr : x i.store <;> simp only [hr] at this
  case ok => exact .of_store this
  case error => exact ⟨.of_store this.left, this.right⟩

theorem intern_obeys {name : String} : Obeys (conduct walks) (intern name) :=
  fun i => ⟨.refl i.store, .intern⟩

theorem assign_obeys {env : FrameId} {x : Symbol} {v : Value} :
    Obeys (conduct walks) (assign env x v) := by
  refine .get_bind fun image => ?_
  cases hb : image.store.binder? env x
  case error fault =>
    exact ⟨.refl _, (Store.binder?_proper.admitted hb).imp .inr id⟩
  case ok binder =>
    cases binder
    case none => exact ⟨.refl _, .plain rfl⟩
    case some => exact onStore_obeys Store.define_obeys image

theorem buildOn_obeys {d : Datum} {seen : List Value} : Obeys (conduct walks) (buildOn seen d) := by
  have hc {seen : List Value} {tail : Value} :
      Obeys (conduct walks) (onStore (Store.consAll seen tail)) := onStore_obeys Store.consAll_obeys
  induction d generalizing seen
  case pair hi₁ hi₂ => exact hi₁.bind fun _ => hi₂
  case string => exact (onStore_obeys Store.allocString_obeys).bind fun _ => hc
  case symbol => exact intern_obeys.bind fun _ => hc
  all_goals exact hc

theorem build_obeys {d : Datum} : Obeys (conduct walks) (build d) :=
  buildOn_obeys

theorem reject_obeys {defect : Defect} : Obeys (conduct walks) (reject defect : Act Image α) :=
  (Obeys.forM (fun _ => build_obeys.discard) _).bind fun _ => .throw fun _ => .plain rfl

theorem buildAll_obeys {c : Reader.Contents Datum} : Obeys (conduct walks) (buildAll c) := by
  refine (Obeys.mapM (fun _ => build_obeys) _).bind fun values => ?_
  split
  case h_1 => exact .pure _
  case h_2 => exact reject_obeys

theorem read_obeys {text : String} : Obeys (conduct walks) (read text) := by
  unfold read
  split
  case h_1 => exact build_obeys
  case h_2 => exact .throw fun _ => .plain rfl
  case h_3 => exact reject_obeys

theorem readAll_obeys {text : String} : Obeys (conduct walks) (readAll text) :=
  buildAll_obeys

-- The continuations of an image's store.
def continuations (i : Image) : Slab Continuation :=
  i.store.continuations

theorem spares_of_obeys {x : Act Image α} (h : Obeys (conduct walks) x) :
    Spares continuations x :=
  h.spares (fun _ _ h => h.store.continuations_eq) fun _ _ h => h.isStack_eq

end Image
end StepLisp
