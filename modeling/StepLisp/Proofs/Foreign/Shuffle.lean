import StepLisp.Machine.Foreign
import StepLisp.Proofs.Store.Spine

namespace StepLisp

namespace Arrangement

variable {α : Type} {n : Nat}

theorem filterMap_range (items : List α) :
    (List.range items.length).filterMap (items[·]?) = items := by
  induction items
  case nil => rfl
  case cons v items hi =>
    rw [List.length_cons, List.range_succ_eq_map, List.filterMap_cons, List.filterMap_map]
    exact congrArg (v :: ·) hi

-- Nothing is lost and nothing is taken twice.
theorem arrange_perm (a : Arrangement n) {items : List α} (h : items.length = n) :
    (a.arrange items).Perm items := by
  subst h
  have hp := a.perm.filterMap (items[·]?)
  rwa [filterMap_range] at hp

-- The item that comes to a place is the one that is taken for it.
theorem getElem?_arrange (a : Arrangement n) {items : List α} (h : items.length = n) (i : Nat) :
    (a.arrange items)[i]? = a.places[i]?.bind (items[·]?) := by
  have hlt (p : Nat) (hp : p ∈ a.places) : p < items.length :=
    h ▸ List.mem_range.mp (a.perm.mem_iff.mp hp)
  unfold arrange
  generalize a.places = places at hlt
  induction places generalizing i
  case nil => rfl
  case cons p places hi =>
    have ⟨hp, hps⟩ := List.forall_mem_cons.mp hlt
    rw [List.filterMap_cons_some (List.getElem?_eq_getElem hp)]
    cases i
    case zero => simp [hp]
    case succ i => exact hi i hps

end Arrangement

namespace Store

variable {s : Store} {list : Value} {ids : List PairId} {items : List Value} {id : PairId}
  {v : Value}

-- One cell

theorem cdr_setCar (id id' : PairId) : (s.setCar id v).cdr id' = s.cdr id' := by
  simp only [cdr, setCar, Array.getD_eq_getD_getElem?, Array.getElem?_modify]
  split
  case isTrue => cases s.cells[id'.index]? <;> rfl
  case isFalse => rfl

theorem car_setCar_self (h : id.index < s.totalCells) : (s.setCar id v).car id = v := by
  simp [car, setCar, Array.getElem?_modify, Array.getElem?_eq_getElem h]

theorem cells_setCar_of_ne {id' : PairId} (h : id' ≠ id) :
    (s.setCar id v).cells[id'.index]? = s.cells[id'.index]? := by
  have hi : id.index ≠ id'.index := fun he => h (by cases id; cases id'; cases he; rfl)
  simp only [setCar, Array.getElem?_modify, if_neg hi]

theorem Spine.of_cdr {s' : Store} {v w : Value} (h : s.Spine v ids w)
    (hc : ∀ id, s'.cdr id = s.cdr id) : s'.Spine v ids w := by
  induction h
  case here => exact .here
  case pair hi => exact .pair (hc _ ▸ hi)

-- The cells of a list have new elements, and nothing else has changed.
structure Rearranges (s : Store) (ids : List PairId) (items : List Value) (s' : Store) : Prop where
  map_car : ids.map s'.car = items
  cdr_eq (id : PairId) : s'.cdr id = s.cdr id
  cells_eq {id : PairId} : id ∉ ids → s'.cells[id.index]? = s.cells[id.index]?
  totalCells_eq : s'.totalCells = s.totalCells
  rest_eq : s' = { s with cells := s'.cells }

-- The walk along the list is not led astray by what it writes, because no cell is met twice.
theorem setCars_rearranges (h : s.Spine list ids .nil) (hv : ∀ id ∈ ids, id.index < s.totalCells)
    (hl : items.length = ids.length) : s.Rearranges ids items (s.setCars list items) := by
  induction ids generalizing s list items
  case nil =>
    cases h
    cases List.length_eq_zero_iff.mp hl
    exact ⟨rfl, fun _ => rfl, fun _ => rfl, rfl, rfl⟩
  case cons id ids hi =>
    obtain ⟨hid, -⟩ := List.nodup_cons.mp (h.nodup rfl)
    obtain ⟨rfl, hrest⟩ := h.head
    obtain _ | ⟨v, items⟩ := items
    · cases hl
    obtain ⟨hlt, hlts⟩ := List.forall_mem_cons.mp hv
    have hsize : (s.setCar id v).totalCells = s.totalCells := Array.size_modify
    have hr := hi (hrest.of_cdr fun _ => cdr_setCar (v := v) id _) (by rwa [hsize])
      (Nat.succ.inj hl)
    rw [setCars]
    refine ⟨?_, fun id' => (hr.cdr_eq id').trans (cdr_setCar id id'), fun hn => ?_,
      hr.totalCells_eq.trans hsize, hr.rest_eq⟩
    · have hcar : ((s.setCar id v).setCars (s.cdr id) items).car id = (s.setCar id v).car id := by
        simp only [car, Array.getD_eq_getD_getElem?, hr.cells_eq hid]
      rw [List.map_cons, hcar, car_setCar_self hlt, hr.map_car]
    · simp only [List.mem_cons, not_or] at hn
      exact (hr.cells_eq hn.right).trans (cells_setCar_of_ne hn.left)

theorem Rearranges.toList? {s' : Store} (hr : s.Rearranges ids items s')
    (h : s.Spine list ids .nil) : s'.toList? list = some items :=
  toList?_eq_some_iff.mpr ⟨ids, h.of_cdr hr.cdr_eq, hr.map_car⟩

end Store

namespace Machine.Chance

variable {m : Machine} {list : Value} {items : List Value}

theorem call_shuffle {order : Arrangement items.length} {g : Generator}
    (hl : m.image.store.toList? list = some items)
    (ho : m.generator.order items.length = (order, g)) :
    Group.random.call "shuffle" [list] m = .ok list { m with
      generator := g
      image := { m.image with store := m.image.store.setCars list (order.arrange items) } } := by
  have ha : listArg "shuffle" list m = .ok items m := by
    simp only [listArg, query, Bind.bind, EStateM.bind, hl]
    rfl
  have hd : draw (·.shuffle items) m = .ok (order.arrange items) { m with generator := g } := by
    simp only [draw, Generator.shuffle, ho]
  show (listArg "shuffle" list >>= shuffle list) m = _
  rw [Act.bind_of_ok ha, shuffle, Act.bind_of_ok hd]
  rfl

-- The generator chooses an order, and the elements of the list are brought into it: they are
-- written into the cells of the list, which stays in its place, and nothing else is changed. What
-- is not a list is left alone.
theorem shuffle_exact (m : Machine) (list : Value) :
    (∀ ids, m.image.store.Spine list ids .nil → (∀ id ∈ ids, id.index < m.image.store.totalCells) →
      let items := ids.map m.image.store.car
      ∀ order g, m.generator.order items.length = (order, g) →
        let s := m.image.store.setCars list (order.arrange items)
        Group.random.call "shuffle" [list] m =
          .ok list { m with generator := g, image := { m.image with store := s } } ∧
        s.toList? list = some (order.arrange items) ∧ (order.arrange items).Perm items ∧
        (∀ i : Nat, (order.arrange items)[i]? = order.places[i]?.bind (items[·]?)) ∧
        m.image.store.Rearranges ids (order.arrange items) s) ∧
    (m.image.store.Cyclic list ∨ (∃ ids w, m.image.store.Spine list ids w ∧ w.isListLike = false) →
      Group.random.call "shuffle" [list] m = .error (.mistyped (.foreignList "shuffle")) m) := by
  refine ⟨fun ids hs hv order g ho => ?_, fun h => ?_⟩
  · have hp : (order.arrange (ids.map m.image.store.car)).Perm _ := order.arrange_perm rfl
    have hr := Store.setCars_rearranges hs hv (hp.length_eq.trans (List.length_map _))
    exact ⟨call_shuffle (Store.toList?_of_list hs) ho, hr.toList? hs, hp,
      order.getElem?_arrange rfl, hr⟩
  · show (listArg "shuffle" list >>= shuffle list) m = _
    simp only [listArg, query, Bind.bind, EStateM.bind, Store.toList?_eq_none_iff.mpr h]
    rfl

-- A source that turns every list around.
def turning : Randomness :=
  { (default : Randomness) with
    order state count := (⟨(List.range count).reverse, List.reverse_perm _⟩, state + 1) }

-- A machine with a list of two elements, the first of which is the rest of the list.
def sharing : Machine where
  image.store.cells := #[⟨.pair ⟨1⟩, .pair ⟨1⟩⟩, ⟨.int 2, .nil⟩]
  image.store.capacity := 2
  image.store.threshold := 1
  image.symbols := .base
  control.env := ⟨0⟩
  global := ⟨0⟩
  settings := {}
  generator := ⟨turning, 0⟩
  clock := default

theorem shuffle_exact_sharing : ∃ m',
    Group.random.call "shuffle" [.pair ⟨0⟩] sharing = .ok (.pair ⟨0⟩) m' ∧
    m'.image.store.toList? (.pair ⟨0⟩) = some [.int 2, .pair ⟨1⟩] ∧
    m'.image.store.cdr ⟨0⟩ = .pair ⟨1⟩ ∧ m'.generator.state = 1 := by
  obtain ⟨hcall, hl, -, -, hr⟩ := (shuffle_exact sharing (.pair ⟨0⟩)).left [⟨0⟩, ⟨1⟩]
    (.pair (.pair .here)) (by decide) _ _ rfl
  exact ⟨_, hcall, hl, hr.cdr_eq ⟨0⟩, rfl⟩

end Machine.Chance
end StepLisp
