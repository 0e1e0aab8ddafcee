import StepLisp.Proofs.Prelude.Scope

namespace StepLisp

open Slot (values)

-- The value of an operand that is found on the spot.
def Datum.value? (ρ : Bindings) : Datum → Option Value
  | .symbol name => ρ.lookup name
  | .int n => some (.int n)
  | .nil => some .nil
  | _ => none

-- The same in a store: a name means what it is bound to, and an atom itself.
def Store.Finds (s : Store) (e : FrameId) : Value → Value → Prop
  | .pair _, _ => False
  | .symbol x, v => s.Sees e x v
  | u, v => v = u

theorem Store.Spells.finds {s : Store} {lib : Library} {e : FrameId} {ρ : Bindings} {d : Datum}
    {u v : Value} (hu : s.Spells lib u d) (hs : s.Scope lib e ρ) (hd : d.value? ρ = some v) :
    s.Finds e u v := by
  cases hu
  case nil | int =>
    cases hd
    rfl
  case symbol => exact hs.sees _ hd
  case pair => cases hd

-- A call of a named procedure.
def Datum.call (name : String) (operands : List Datum) : Datum :=
  .list (.symbol name :: operands) .nil

-- Where an expression is evaluated: the environment, and what waits for the value.
structure Place where
  global : FrameId
  env : FrameId
  cont : Step
  slots : List Slot

namespace Place

variable {p q : Place} {f rest v w : Value} {vs : List Value}

def waiting (p : Place) : List Ref :=
  p.global.ref :: (p.cont.refs ++ p.slots.flatMap Slot.refs)

def held (p : Place) : List Ref :=
  p.env.ref :: p.waiting

-- The stack during a step that evaluates operands, with the values of some.
def gathered (p : Place) (f : Value) (vs : List Value) : List Slot :=
  values vs.reverse ++ .sentinel :: .callee (.proc f) :: .env p.env :: .step p.cont :: p.slots

-- The place of an operand that comes after some others and before the rest.
def operand (p : Place) (f : Value) (vs : List Value) (rest : Value) : Place :=
  { p with cont := .evalOperand, slots := .env p.env :: .value rest :: p.gathered f vs }

-- The place of a test.
def test (p : Place) (consequent alternate : Value) : Place :=
  { p with
    cont := .ifBranch
    slots := .value alternate :: .value consequent :: .env p.env :: .step p.cont :: p.slots }

-- One place is on top of another.
structure Above (q p : Place) : Prop where
  slots : p.slots <:+ q.slots
  held : p.held ⊆ q.waiting

theorem refs_subset_waiting (hv : .value v ∈ p.slots) : v.refs ⊆ p.waiting := fun _ hr =>
  List.mem_cons_of_mem _ <| List.mem_append_right _ <| List.mem_flatMap.mpr ⟨.value v, hv, hr⟩

theorem waiting_subset_held : p.waiting ⊆ p.held :=
  List.subset_cons_self _ _

-- A place where the environment and what waited have been put aside.
theorem Above.of_slots (σ : List Slot) (hg : q.global = p.global)
    (hs : q.slots = σ ++ .env p.env :: .step p.cont :: p.slots) : q.Above p where
  slots := ⟨σ ++ [.env p.env, .step p.cont], by simp [hs]⟩
  held r hr := by
    simp only [Place.held, waiting, List.mem_cons, List.mem_append] at hr
    simp only [waiting, hg, hs, List.flatMap_append, List.flatMap_cons, Slot.refs, List.mem_cons,
      List.mem_append]
    tauto

theorem operand_above : (p.operand f vs rest).Above p :=
  .of_slots (.env p.env :: .value rest :: (values vs.reverse ++ [.sentinel, .callee (.proc f)])) rfl
    (by simp [operand, gathered])

theorem test_above : (p.test v w).Above p :=
  .of_slots [.value w, .value v] rfl rfl

theorem length_gathered : (p.gathered f vs).length = p.slots.length + vs.length + 4 := by
  simp [gathered, values]
  omega

theorem length_operand : (p.operand f vs rest).slots.length = p.slots.length + vs.length + 6 := by
  simp [operand, length_gathered]

end Place

namespace Machine

variable {m m' m₁ : Machine} {lib : Library} {ρ : Bindings} {p q : Place}
variable {f v w args rest : Value} {vs ws : List Value} {x y name : String} {next next' : Step}
variable {d d' : Datum} {ds ds' es : List Datum} {n fuel c h level : Nat} {P : Machine → Prop}

-- Registers and stack are those of a place.
structure Placed (p : Place) (m : Machine) : Prop where
  global : m.global = p.global
  env : m.control.env = p.env
  cont : m.control.cont = p.cont
  slots : m.control.stack.slots = p.slots

-- About to evaluate an expression.
structure ToEval (lib : Library) (d : Datum) (p : Place) (m : Machine) : Prop
    extends Placed p m where
  exp : m.image.store.Spells lib m.control.exp d

-- About to apply a procedure to arguments.
structure ToApply (vs : List Value) (p : Place) (m : Machine) : Prop extends Placed p m where
  argl : ∃ ids, m.image.store.Row m.control.argl ids vs .nil

-- About to apply a special form to its operands.
structure ToForm (lib : Library) (ds : List Datum) (p : Place) (m : Machine) : Prop
    extends Placed p m where
  argl : m.image.store.Spells lib m.control.argl (.list ds .nil)

-- About to go on with a value.
structure With (v : Value) (p : Place) (m : Machine) : Prop where
  global : m.global = p.global
  val : m.control.val = v
  slots : m.control.stack.slots = p.slots

-- In the middle of a step, with the values of some operands on the stack.
structure Gathering (f : Value) (vs : List Value) (p : Place) (m : Machine) : Prop where
  global : m.global = p.global
  env : m.control.env = p.env
  slots : m.control.stack.slots = p.gathered f vs

-- What is held

theorem mem_roots_of_waiting (hg : m.global = p.global) (hc : m.control.cont = p.cont)
    (hs : m.control.stack.slots = p.slots) {r : Ref} (hr : r ∈ p.waiting) : r ∈ m.roots next := by
  simp only [Place.waiting, List.mem_cons, List.mem_append] at hr
  simp only [roots, Control.roots, hg, hc, hs, List.mem_append, List.mem_cons]
  tauto

theorem Placed.mem_roots (hm : m.Placed p) {r : Ref} (hr : r ∈ p.held) : r ∈ m.roots next := by
  rcases List.mem_cons.mp hr with rfl | hr
  · exact mem_roots_of_control (by simp [Control.roots, hm.env])
  · exact mem_roots_of_waiting hm.global hm.cont hm.slots hr

theorem With.mem_roots (hm : m.With v p) {r : Ref} (hc : p.cont.refs = []) (hr : r ∈ p.waiting) :
    r ∈ m.roots next := by
  simp only [Place.waiting, hc, List.nil_append, List.mem_cons] at hr
  rcases hr with rfl | hr
  · simp [roots, hm.global]
  · exact mem_roots_of_slots (hm.slots ▸ hr)

theorem With.val_subset_roots (hm : m.With v p) : v.refs ⊆ m.roots next := fun _ hr =>
  mem_roots_of_control (by simp [Control.roots, hm.val, hr])

theorem With.held_subset_roots (hm : m.With v (p.operand f vs rest)) : p.held ⊆ m.roots next :=
  fun _ hr => hm.mem_roots rfl <| Place.operand_above.held hr

theorem With.subset_roots (hm : m.With v (p.operand f vs rest)) : p.held ++ v.refs ⊆ m.roots next :=
  List.append_subset.mpr ⟨hm.held_subset_roots, hm.val_subset_roots⟩

theorem Placed.not_appliesAt (hm : m.Placed p) (hl : p.slots.length ≠ level) :
    ¬AppliesAt level (next, m) := fun ha => hl (hm.slots ▸ ha.right)

-- What goes on at a place above another one is no concern of that one.
theorem Passes.below (ha : q.Above p) (hs : Passes level q.held q.slots c h next m next' P) :
    Passes level p.held p.slots c h next m next' P :=
  hs.mono ha.slots (fun _ hr => .root (List.mem_cons_of_mem _ (ha.held hr))) (Nat.le_refl _)
    (Nat.le_refl _)

-- After a collection

namespace Cleared

theorem global (hc : Cleared next m m₁) : m₁.global = m.global :=
  congrArg World.global hc.world

theorem placed (hc : Cleared next m m₁) (hm : m.Placed p) : m₁.Placed p where
  global := hc.global.trans hm.global
  env := hc.control ▸ hm.env
  cont := hc.control ▸ hm.cont
  slots := hc.control ▸ hm.slots

theorem toEval (hc : Cleared next m m₁) (hm : m.ToEval lib d p) : m₁.ToEval lib d p where
  toPlaced := hc.placed hm.toPlaced
  exp := by
    rw [hc.control]
    refine hm.exp.keeps (Store.holds_of_subset fun r hr => ?_) hc.keeps
    exact mem_roots_of_control (by simp [Control.roots, hr])

theorem toApply (hc : Cleared next m m₁) (hm : m.ToApply vs p) : m₁.ToApply vs p where
  toPlaced := hc.placed hm.toPlaced
  argl := by
    have ⟨ids, hr⟩ := hm.argl
    rw [hc.control]
    refine ⟨ids, hr.keeps (Store.holds_of_subset fun r hr => ?_) hc.keeps⟩
    exact mem_roots_of_control (by simp [Control.roots, hr])

theorem toForm (hc : Cleared next m m₁) (hm : m.ToForm lib ds p) : m₁.ToForm lib ds p where
  toPlaced := hc.placed hm.toPlaced
  argl := by
    rw [hc.control]
    refine hm.argl.keeps (Store.holds_of_subset fun r hr => ?_) hc.keeps
    exact mem_roots_of_control (by simp [Control.roots, hr])

theorem value (hc : Cleared next m m₁) (hm : m.With v p) : m₁.With v p where
  global := hc.global.trans hm.global
  val := hc.control ▸ hm.val
  slots := hc.control ▸ hm.slots

theorem scope (hc : Cleared next m m₁) (hs : m.image.store.Scope lib p.env ρ) (hm : m.Placed p) :
    m₁.image.store.Scope lib p.env ρ :=
  hs.keeps (.root <| hm.mem_roots List.mem_cons_self) hc.keeps

theorem operand (hc : Cleared next m m₁) (hm : m.With v (p.operand f vs rest))
    (hr : m.image.store.Spells lib rest d) (hs : m.image.store.Scope lib p.env ρ) :
    m₁.image.store.Scope lib p.env ρ ∧ m₁.image.store.Spells lib rest d := by
  refine ⟨hs.keeps (.root <| hm.held_subset_roots List.mem_cons_self) hc.keeps,
    hr.keeps (Store.holds_of_subset fun r hr => ?_) hc.keeps⟩
  exact hm.mem_roots rfl <| Place.refs_subset_waiting (v := rest) (by simp [Place.operand]) hr

end Cleared

theorem onStore_bind_eq {α β : Type} {a : α} {s : Store} {y : Act Store α} {f : α → Run β}
    (h : y m.image.store = .ok a s) :
    ((liftM y : Run α) >>= f) m = f a { m with image := { m.image with store := s } } := by
  simp only [Bind.bind, EStateM.bind, onStore_of_ok h]

-- Operands

theorem gather_eq {unexpected : Slot → Internal} {σ : List Slot} {s : Store} {l : Value}
    (hm : m.control.stack.slots = values vs ++ .sentinel :: σ) (hn : vs.length < n)
    (hc : Store.consAll vs l m.image.store = .ok v s) :
    gather unexpected n l m = .ok v { m with
      control := { m.control with stack := .ofSlots σ }
      image := { m.image with store := s } } := by
  induction vs generalizing n l m
  all_goals
    obtain _ | n := n
    · cases hn
    rw [gather, onControl_bind_eq (Control.pop_eq hm)]
  case nil =>
    cases hc
    rfl
  case cons u vs hi =>
    simp only [Store.consAll, Bind.bind, EStateM.bind] at hc
    cases ha : Store.cons u l m.image.store <;> rw [ha] at hc
    case error => cases hc
    case ok l' s' =>
      let popped : Control := { m.control with stack := .ofSlots (values vs ++ .sentinel :: σ) }
      refine (onStore_bind_eq (m := { m with control := popped }) ha).trans ?_
      exact hi rfl (Nat.lt_of_succ_lt_succ hn) hc

-- What is done with the operands once they are all there.
def callWith (args : Value) : Callee → Run Step
  | .proc proc => return .apply proc
  | .foreign group function => do deliver (← callForeign group function args)

theorem finishOperands_eq {callee : Callee} {e : FrameId} {k : Step} {σ : List Slot}
    (hm : m.control.stack.slots =
      values vs.reverse ++ .sentinel :: .callee callee :: .env e :: .step k :: σ)
    (hs : m.image.store.Sound) (hr : vs.length ≤ m.image.store.room) : ∃ args s ids,
      finishOperands m = callWith args callee { m with
        image := { m.image with store := s }
        control := { m.control with env := e, cont := k, argl := args, stack := .ofSlots σ } } ∧
      m.image.store.Gains vs.length s ∧ s.Row args ids vs .nil := by
  have hr' : vs.reverse.length ≤ m.image.store.room := by simpa using hr
  have ⟨args, s, ids, hc, hg, hsp, hm', hf⟩ := Store.consAll_gains (w := .nil) hs hr'
  have hn : vs.reverse.length < m.control.stack.depth := by
    rw [m.control.stack.depth_eq, hm]
    simp [values]
  have hrow := Store.Row.of_spine hsp fun id hid => Option.isSome_iff_exists.mp (hf id hid).right
  rw [hm', List.reverse_reverse] at hrow
  rw [List.length_reverse] at hg
  refine ⟨args, s, ids, ?_, hg, hrow⟩
  simp only [finishOperands, depth, Bind.bind, EStateM.bind, gather_eq hm hn hc]
  cases callee <;> rfl

theorem Gathering.finish (hm : m.Gathering f vs p) (hs : m.image.store.Sound)
    (hr : vs.length ≤ m.image.store.room) : ∃ m', finishOperands m = .ok (.apply f) m' ∧
      Goes vs.length 0 m m' ∧ m'.ToApply vs p := by
  have ⟨args, s, ids, he, hg, hrow⟩ := finishOperands_eq hm.slots hs hr
  exact ⟨_, he, ⟨hg, rfl, Nat.le_max_left _ _⟩, ⟨hm.global, rfl, rfl, rfl⟩, ids, hrow⟩

theorem operandsFrom_found {id : PairId} {u : Value}
    (hc : m.image.store.object? id.ref = some (.cell ⟨u, rest⟩))
    (hw : m.image.store.Finds m.control.env u w) :
    operandsFrom (fuel + 1) (.pair id) m = operandsFrom fuel rest (m.pushed w) := by
  have hcar : m.image.store.car id = u := Store.car_of_object? hc
  have hcdr : m.image.store.cdr id = rest := Store.cdr_of_object? hc
  simp only [operandsFrom, query, Bind.bind, EStateM.bind, hcar, hcdr]
  cases u
  case pair => exact hw.elim
  case symbol =>
    simp only [EStateM.bind, lookup_of_found (Store.Sees.lookup? hw)]
    rfl
  all_goals
    cases hw
    rfl

-- The values of operands are pushed one after the other, whatever they are for.
theorem operandsFrom_values {us : List Value} {ids : List PairId} {σ : List Slot} (fuel : Nat)
    (hm : m.control.stack.slots = values vs.reverse ++ .sentinel :: σ) (hs : m.image.store.Sound)
    (ha : m.image.store.Row args ids us rest)
    (hw : List.Forall₂ (m.image.store.Finds m.control.env) us ws) : ∃ m',
      operandsFrom (us.length + fuel) args m = operandsFrom fuel rest m' ∧
      Goes 0 (σ.length + (vs.length + ws.length) + 1) m m' ∧ m'.image = m.image ∧
      m'.global = m.global ∧ m'.control.env = m.control.env ∧
      m'.control.stack.slots = values (vs ++ ws).reverse ++ .sentinel :: σ := by
  induction us generalizing m args vs ws ids
  all_goals
    cases hw
    cases ha
  case nil =>
    exact ⟨m, by simp, ⟨.refl hs, rfl, Nat.le_max_left _ _⟩, rfl, rfl, rfl, by simpa using hm⟩
  case cons u us hi w ws hw hws id args ids hc ha =>
    have hm' : (m.pushed w).control.stack.slots = values (vs ++ [w]).reverse ++ .sentinel :: σ := by
      simp [pushed, Control.pushed, Stack.push, hm, Slot.values]
    obtain ⟨m', he, hg, hi', hgl, henv, hsl⟩ := hi hm' hs ha hws
    have hd := hm' ▸ (m.pushed w).control.stack.depth_eq
    refine ⟨m', ?_, ⟨hg.gains, hg.world, ?_⟩, hi', hgl, henv, by simpa using hsl⟩
    · rw [List.length_cons, Nat.add_right_comm, operandsFrom_found hc hw, he]
    · have hh := hg.highWater
      have hpush : (m.pushed w).control.highWater =
        max m.control.highWater (m.pushed w).control.stack.depth := rfl
      simp only [values, List.length_append, List.length_map, List.length_reverse, List.length_cons,
        List.length_nil] at hh hd ⊢
      omega

theorem Gathering.values {us : List Value} {ids : List PairId} (fuel : Nat)
    (hm : m.Gathering f vs p)
    (hs : m.image.store.Sound) (ha : m.image.store.Row args ids us rest)
    (hw : List.Forall₂ (m.image.store.Finds p.env) us ws) : ∃ m',
      operandsFrom (us.length + fuel) args m = operandsFrom fuel rest m' ∧
      Goes 0 (p.slots.length + (vs.length + ws.length) + 4) m m' ∧ m'.image = m.image ∧
      m'.Gathering f (vs ++ ws) p := by
  obtain ⟨m', he, hg, hi, hgl, henv, hsl⟩ := operandsFrom_values fuel hm.slots hs ha (hm.env ▸ hw)
  refine ⟨m', he, hg.mono ?_, hi, hgl.trans hm.global, henv.trans hm.env, hsl⟩
  simp only [List.length_cons]
  omega

-- An operand that is not found on the spot is left to further steps.
theorem operandsFrom_pair {i j : PairId}
    (hj : m.image.store.object? j.ref = some (.cell ⟨.pair i, rest⟩)) :
    operandsFrom (fuel + 1) (.pair j) m = .ok .eval { m with
      control := { (m.control.pushed (.value rest)).pushed (.env m.control.env) with
        exp := .pair i, cont := .evalOperand } } := by
  have hcar : m.image.store.car j = .pair i := Store.car_of_object? hj
  have hcdr : m.image.store.cdr j = rest := Store.cdr_of_object? hj
  simp only [operandsFrom, query, Bind.bind, EStateM.bind, hcar, hcdr]
  rfl

-- There is fuel enough for any list of operands.
theorem operands_eq (args : Value) (hn : n ≤ m.image.store.totalCells) :
    ∃ fuel, operands args m = operandsFrom (n + (fuel + 1)) args m := by
  refine ⟨m.image.store.totalCells - n, ?_⟩
  rw [show n + (m.image.store.totalCells - n + 1) = m.image.store.totalCells + 1 by omega]
  rfl

-- All the operands are there: the procedure is applied to them.
theorem Gathering.apply {us : List Value} {ids : List PairId} (hm : m.Gathering f vs p)
    (hs : m.image.store.Sound) (ha : m.image.store.Row args ids us .nil)
    (hw : List.Forall₂ (m.image.store.Finds p.env) us ws)
    (hr : vs.length + ws.length ≤ m.image.store.room) : ∃ m',
      operands args m = .ok (.apply f) m' ∧
      Goes (vs.length + ws.length) (p.slots.length + (vs.length + ws.length) + 4) m m' ∧
      m'.ToApply (vs ++ ws) p := by
  have ⟨fuel, hf⟩ := operands_eq args ha.length_le
  obtain ⟨m₁, ho, hg, -, hm₁⟩ := hm.values (fuel + 1) hs ha hw
  have hroom := hg.gains.room
  have ⟨m', hfin, hg', ht⟩ := hm₁.finish hg.gains.sound (by rw [List.length_append]; omega)
  refine ⟨m', ?_, ?_, ht⟩
  · rw [hf, ho]
    exact hfin
  · have hall := hg.trans (hg'.mono (Nat.zero_le _))
    rwa [Nat.zero_add, List.length_append] at hall

-- The next operand takes more than one step.
theorem Gathering.suspend {us : List Value} {ids : List PairId} {i j : PairId}
    (hm : m.Gathering f vs p) (hs : m.image.store.Sound)
    (ha : m.image.store.Row args ids us (.pair j))
    (hj : m.image.store.object? j.ref = some (.cell ⟨.pair i, rest⟩))
    (hn : us.length ≤ m.image.store.totalCells)
    (hw : List.Forall₂ (m.image.store.Finds p.env) us ws) : ∃ m',
      operands args m = .ok .eval m' ∧
      Goes 0 (p.slots.length + (vs.length + ws.length) + 6) m m' ∧ m'.image = m.image ∧
      m'.Placed (p.operand f (vs ++ ws) rest) ∧ m'.control.exp = .pair i := by
  have ⟨fuel, hf⟩ := operands_eq args hn
  obtain ⟨m₁, ho, hg, hi, hm₁⟩ := hm.values (fuel + 1) hs ha hw
  refine ⟨_, (hf.trans ho).trans (operandsFrom_pair (hi ▸ hj)), ⟨hg.gains, hg.world, ?_⟩, hi,
    ⟨hm₁.global, hm₁.env, rfl, ?_⟩, rfl⟩
  · have hd := hm₁.slots ▸ m₁.control.stack.depth_eq
    have hh := hg.highWater
    rw [Place.length_gathered, List.length_append] at hd
    simp only [Control.pushed, Stack.push]
    omega
  · simp only [Control.pushed, Stack.push, hm₁.slots, hm₁.env, Place.operand]

-- The same for operands that are code.

theorem finds_of_spells {s : Store} {e : FrameId} {us : List Value}
    (hu : List.Forall₂ (s.Spells lib) us ds)
    (hsc : s.Scope lib e ρ) (hw : List.Forall₂ (fun d w => d.value? ρ = some w) ds ws) :
    List.Forall₂ (s.Finds e) us ws := by
  induction hu generalizing ws <;> cases hw
  case nil => exact .nil
  case cons hu _ hi _ _ hw hws => exact .cons (hu.finds hsc hw) (hi hws)

theorem Gathering.apply_spelled (hm : m.Gathering f vs p) (hs : m.image.store.Sound)
    (ha : m.image.store.Spells lib args (.list ds .nil)) (hsc : m.image.store.Scope lib p.env ρ)
    (hw : List.Forall₂ (fun d w => d.value? ρ = some w) ds ws)
    (hr : vs.length + ws.length ≤ m.image.store.room) : ∃ m',
      operands args m = .ok (.apply f) m' ∧
      Goes (vs.length + ws.length) (p.slots.length + (vs.length + ws.length) + 4) m m' ∧
      m'.ToApply (vs ++ ws) p := by
  obtain ⟨ids, us, hrow, hus⟩ := ha.row
  exact hm.apply hs hrow (finds_of_spells hus hsc hw) hr

theorem Gathering.suspend_spelled (hm : m.Gathering f vs p) (hs : m.image.store.Sound)
    (ha : m.image.store.Spells lib args (.list (ds ++ .call x es :: ds') .nil))
    (hsc : m.image.store.Scope lib p.env ρ)
    (hw : List.Forall₂ (fun d w => d.value? ρ = some w) ds ws) : ∃ rest m',
      operands args m = .ok .eval m' ∧
      Goes 0 (p.slots.length + (vs.length + ws.length) + 6) m m' ∧
      m'.image.store.Spells lib rest (.list ds' .nil) ∧
      m'.ToEval lib (.call x es) (p.operand f (vs ++ ws) rest) := by
  obtain ⟨is, ws', hall, hws'⟩ := ha.row
  have hle := hall.length_le
  rw [hws'.length_eq, List.length_append] at hle
  obtain ⟨ids, us, tail, hrow, hus, htail⟩ := ha.split
  obtain ⟨j, v, rest, rfl, hj, hv, hrest⟩ := htail.list_cons
  obtain ⟨i, rfl⟩ : ∃ i, v = .pair i := by cases hv; exact ⟨_, rfl⟩
  obtain ⟨m', ho, hg, hi, hm', he⟩ := hm.suspend hs hrow hj (by rw [hus.length_eq]; omega)
    (finds_of_spells hus hsc hw)
  exact ⟨rest, m', ho, hg, hi ▸ hrest, hm', he ▸ hi ▸ hv⟩

-- Procedures that take their operands evaluated.
def Ordinary (s : Store) (v : Value) : Prop :=
  isSpecial s v = .ok false

theorem isSpecial_keeps {s s' : Store} {held : List Ref} {b : Bool} (hv : isSpecial s v = .ok b)
    (hh : s.Holds held v) (hk : s.Keeps held s') : isSpecial s' v = .ok b := by
  cases v
  case closure id =>
    have hr := hh id.ref List.mem_cons_self
    cases hc : s.closure id <;> simp only [isSpecial, hc] at hv
    case error => cases hv
    case ok c =>
      have ho := hk.object? hr (o := .closure c) (by
        rw [Store.object?_closure, Store.present_eq_ok_iff.mp hc]
        rfl)
      simp only [isSpecial, Store.closure_of_object? ho]
      exact hv
  case continuation id =>
    have hr := hh id.ref List.mem_cons_self
    cases hc : s.continuation id <;> simp only [isSpecial, hc] at hv
    case error => cases hv
    case ok c =>
      have ho := hk.object? hr (o := .continuation c) (by
        rw [Store.object?_continuation, Store.present_eq_ok_iff.mp hc]
        rfl)
      simp only [isSpecial, Store.continuation_of_object? ho]
      exact hv
  all_goals exact hv

theorem Ordinary.keeps {s s' : Store} {held : List Ref} (hv : Ordinary s v) (hh : s.Holds held v)
    (hk : s.Keeps held s') : Ordinary s' v :=
  isSpecial_keeps hv hh hk

theorem Cleared.ordinary (hc : Cleared next m m₁) (hg : m.Going next) (hm : m.Placed p)
    (hsc : m.image.store.Scope lib p.env ρ) (hx : ρ.lookup x = some f)
    (hf : Ordinary m.image.store f) : Ordinary m₁.image.store f :=
  have he : m.image.store.Refers (m.roots next) p.env.ref :=
    .root <| hm.mem_roots List.mem_cons_self
  hf.keeps ((hsc.sees _ hx).holds hg.sound he) hc.keeps

-- The operator is found on the spot.
theorem eval_call (hm : m.ToEval lib (.call x ds) p) (hs : m.image.store.Sound)
    (hsc : m.image.store.Scope lib p.env ρ) (hx : ρ.lookup x = some f) : ∃ args m',
      eval m = evalOperator m' ∧ Goes 0 (p.slots.length + 3) m m' ∧
      m'.image = m.image ∧ m'.image.store.Spells lib args (.list ds .nil) ∧
      m'.global = p.global ∧ m'.control.val = f ∧
      m'.control.stack.slots = .value args :: .env p.env :: .step p.cont :: p.slots := by
  obtain ⟨id, v, args, hp, hc, hv, ha⟩ := hm.exp.list_cons
  cases hv
  have hcar : m.image.store.car id = .symbol (lib.sym x) := Store.car_of_object? hc
  have hcdr : m.image.store.cdr id = args := Store.cdr_of_object? hc
  have hl : m.image.store.lookup? m.control.env (lib.sym x) = .ok (some f) := by
    rw [hm.env]
    exact (hsc.sees _ hx).lookup?
  refine ⟨args, m.operated f args, by rw [eval_eq hp hcar hl, hcdr], ⟨.refl hs, rfl, ?_⟩, rfl, ha,
    hm.global, rfl, by simp [operated, Control.pushed, Stack.push, hm.env, hm.cont, hm.slots]⟩
  have hd := hm.slots ▸ m.control.stack.depth_eq
  simp only [operated, Control.pushed, Stack.push]
  omega

theorem evalOperator_of_ordinary (hg : m.global = p.global) (hv : m.control.val = f)
    (hm : m.control.stack.slots = .value args :: .env p.env :: .step p.cont :: p.slots)
    (hs : m.image.store.Sound) (hf : Ordinary m.image.store f) : ∃ m',
      evalOperator m = operands args m' ∧ Goes 0 (p.slots.length + 4) m m' ∧
      m'.image = m.image ∧ m'.Gathering f [] p := by
  let c := (m.lowered p.env (.env p.env :: .step p.cont :: p.slots)).control
  refine ⟨{ m with control := (c.pushed (.callee (.proc f))).pushed .sentinel }, ?_,
    ⟨.refl hs, rfl, ?_⟩, rfl, ⟨hg, rfl, rfl⟩⟩
  · rw [evalOperator_eq hm, hv]
    have hf' : isSpecial (m.lowered p.env (.env p.env :: .step p.cont :: p.slots)).image.store f =
      .ok false := hf
    simp only [queryOrFail, Bind.bind, EStateM.bind, hf']
    rfl
  · simp only [c, lowered, Control.pushed, Stack.push, Stack.ofSlots, List.length_cons]
    omega

theorem evalOperator_of_special (hg : m.global = p.global) (hv : m.control.val = f)
    (hm : m.control.stack.slots = .value args :: .env p.env :: .step p.cont :: p.slots)
    (hs : m.image.store.Sound) (hf : isSpecial m.image.store f = .ok true) : ∃ m',
      evalOperator m = .ok (.apply f) m' ∧ Goes 0 0 m m' ∧
      m'.image = m.image ∧ m'.Placed p ∧ m'.control.argl = args := by
  refine ⟨{ m with control := { m.control with
    env := p.env, cont := p.cont, argl := args, stack := .ofSlots p.slots } }, ?_,
    ⟨.refl hs, rfl, Nat.le_max_left _ _⟩, rfl, ⟨hg, rfl, rfl, rfl⟩, rfl⟩
  rw [evalOperator_eq hm, hv]
  have hf' : isSpecial (m.lowered p.env (.env p.env :: .step p.cont :: p.slots)).image.store f =
    .ok true := hf
  simp only [queryOrFail, Bind.bind, EStateM.bind, hf']
  rfl

theorem eval_of_ordinary (hm : m.ToEval lib (.call x ds) p) (hs : m.image.store.Sound)
    (hsc : m.image.store.Scope lib p.env ρ) (hx : ρ.lookup x = some f)
    (hf : Ordinary m.image.store f) : ∃ args m', eval m = operands args m' ∧
      Goes 0 (p.slots.length + 4) m m' ∧ m'.image = m.image ∧
      m'.image.store.Spells lib args (.list ds .nil) ∧ m'.Gathering f [] p := by
  obtain ⟨args, m₁, he, hg, hi, ha, hgl, hv, hsl⟩ := eval_call hm hs hsc hx
  obtain ⟨m', he', hg', hi', hm'⟩ := evalOperator_of_ordinary hgl hv hsl hg.gains.sound (hi ▸ hf)
  exact ⟨args, m', he.trans he', (hg.mono (by omega)).trans hg', hi'.trans hi, hi' ▸ ha, hm'⟩

theorem evalOperand_of_with (hm : m.With v (p.operand f vs rest)) (hs : m.image.store.Sound) :
    ∃ m', evalOperand m = operands rest m' ∧ Goes 0 (p.slots.length + vs.length + 5) m m' ∧
      m'.image = m.image ∧ m'.Gathering f (vs ++ [v]) p := by
  refine ⟨_, evalOperand_eq hm.slots, ⟨.refl hs, rfl, ?_⟩, rfl, hm.global, rfl, ?_⟩
  · have hl : (p.gathered f vs).length = _ := Place.length_gathered
    simp only [pushed, lowered, Control.pushed, Stack.push, Stack.ofSlots]
    omega
  · simp [pushed, lowered, Control.pushed, Stack.push, Stack.ofSlots, Place.gathered,
      Slot.values, hm.val]

-- Rules for expressions

theorem eval_eq_deliver (hv : m.image.store.Finds m.control.env m.control.exp v) :
    eval m = deliver v m := by
  rw [eval, get_bind_eq]
  generalize m.control.exp = u at hv
  cases u
  case pair => exact hv.elim
  case symbol => simp only [Bind.bind, EStateM.bind, lookup_of_found (Store.Sees.lookup? hv)]
  all_goals
    cases hv
    rfl

theorem ToEval.value (hg : m.Going .eval) (hm : m.ToEval lib d p)
    (hsc : m.image.store.Scope lib p.env ρ) (hd : d.value? ρ = some v) :
    Passes level p.held p.slots 0 h .eval m p.cont (With v p) := by
  refine (hg.steps nofun fun m₁ hc => ?_).passes (fun r hr => .root <| hm.mem_roots hr) nofun
    fun m' hm' => hm'.slots ▸ List.suffix_refl _
  have hm₁ := hc.toEval hm
  have hsc₁ := hc.scope hsc hm.toPlaced
  rw [← hm₁.env] at hsc₁
  refine ⟨{ m₁ with control := { m₁.control with val := v } }, ?_,
    ⟨.refl hc.keeps.sound, rfl, Nat.le_max_left _ _⟩, hm₁.global, rfl, hm₁.slots⟩
  rw [← hm₁.cont]
  exact eval_eq_deliver (hm₁.exp.finds hsc₁ hd)

-- A call whose operands are found on the spot.
theorem ToEval.call (ws : List Value) (hg : m.Going .eval) (hm : m.ToEval lib (.call x ds) p)
    (hsc : m.image.store.Scope lib p.env ρ) (hx : ρ.lookup x = some f)
    (hf : Ordinary m.image.store f) (hw : List.Forall₂ (fun d w => d.value? ρ = some w) ds ws)
    (hr : ws.length ≤ m.image.store.room) (hh : p.slots.length + ws.length + 4 ≤ h) :
    Passes level p.held p.slots ws.length h .eval m (.apply f) (ToApply ws p) := by
  refine (hg.steps nofun fun m₁ hc => ?_).passes (fun r hr => .root <| hm.mem_roots hr) nofun
    fun m' hm' => hm'.slots ▸ List.suffix_refl _
  have hsc₁ := hc.scope hsc hm.toPlaced
  obtain ⟨args, m₂, he, hg₂, hi, ha, hm₂⟩ := eval_of_ordinary (hc.toEval hm) hc.keeps.sound hsc₁ hx
    (hc.ordinary hg hm.toPlaced hsc hx hf)
  have hroom := hc.room
  have ⟨m', hop, hg', hm'⟩ := hm₂.apply_spelled hg₂.gains.sound ha (hi ▸ hsc₁) hw
    (by rw [hi, List.length_nil]; omega)
  rw [List.length_nil, Nat.zero_add] at hg'
  refine ⟨m', he.trans hop, ?_, hm'⟩
  have hall : Goes _ h m₁ m' := (hg₂.mono (by omega)).trans <| hg'.mono (by omega)
  rwa [Nat.zero_add] at hall

-- A call with an operand that takes more than one step.
theorem ToEval.operand (ds : List Datum) (ws : List Value) {ops : List Datum} (hg : m.Going .eval)
    (hm : m.ToEval lib (.call x ops) p) (ho : ops = ds ++ .call y es :: ds')
    (hsc : m.image.store.Scope lib p.env ρ) (hx : ρ.lookup x = some f)
    (hf : Ordinary m.image.store f) (hw : List.Forall₂ (fun d w => d.value? ρ = some w) ds ws)
    (hh : p.slots.length + ws.length + 6 ≤ h) :
    Passes level p.held p.slots 0 h .eval m .eval fun m' => ∃ rest,
      m'.image.store.Spells lib rest (.list ds' .nil) ∧
      m'.ToEval lib (.call y es) (p.operand f ws rest) := by
  subst ho
  refine (hg.steps nofun fun m₁ hc => ?_).passes (fun r hr => .root <| hm.mem_roots hr) nofun ?_
  · have hsc₁ := hc.scope hsc hm.toPlaced
    obtain ⟨args, m₂, he, hg₂, hi, ha, hm₂⟩ :=
      eval_of_ordinary (hc.toEval hm) hc.keeps.sound hsc₁ hx
      (hc.ordinary hg hm.toPlaced hsc hx hf)
    have ⟨rest, m', hop, hg', hr, hm'⟩ := hm₂.suspend_spelled hg₂.gains.sound ha (hi ▸ hsc₁) hw
    rw [List.length_nil, Nat.zero_add] at hg'
    exact ⟨m', he.trans hop, (hg₂.mono (by omega)).trans <| hg'.mono (by omega), rest, hr, hm'⟩
  · rintro m' ⟨rest, -, hm'⟩
    exact hm'.slots ▸ Place.operand_above.slots

-- The last operand that takes more than one step has been evaluated.
theorem With.apply (ws : List Value) {held : List Ref} (hg : m.Going .evalOperand)
    (hm : m.With v (p.operand f vs rest)) (hheld : held ⊆ m.roots .evalOperand)
    (hrest : m.image.store.Spells lib rest (.list ds .nil)) (hsc : m.image.store.Scope lib p.env ρ)
    (hw : List.Forall₂ (fun d w => d.value? ρ = some w) ds ws)
    (hr : vs.length + 1 + ws.length ≤ m.image.store.room)
    (hh : p.slots.length + (vs.length + 1 + ws.length) + 4 ≤ h) :
    Passes level held p.slots (vs.length + 1 + ws.length) h .evalOperand m (.apply f)
      (ToApply (vs ++ [v] ++ ws) p) := by
  refine (hg.steps nofun fun m₁ hc => ?_).passes (fun r hr => .root (hheld hr)) nofun
    fun m' hm' => hm'.slots ▸ List.suffix_refl _
  have ⟨hsc₁, hrest₁⟩ := hc.operand hm hrest hsc
  obtain ⟨m₂, he, hg₂, hi, hm₂⟩ := evalOperand_of_with (hc.value hm) hc.keeps.sound
  have hroom := hc.room
  have hl : (vs ++ [v]).length = vs.length + 1 := by simp
  have ⟨m', hop, hg', hm'⟩ := hm₂.apply_spelled hg₂.gains.sound (hi ▸ hrest₁) (hi ▸ hsc₁) hw
    (by rw [hi, hl]; omega)
  rw [hl] at hg'
  refine ⟨m', he.trans hop, ?_, hm'⟩
  have hall : Goes _ h m₁ m' := (hg₂.mono (by omega)).trans <| hg'.mono (by omega)
  rwa [Nat.zero_add] at hall

-- An operand has been evaluated, and there is another one that takes more than one step.
theorem With.operand (ds : List Datum) (ws : List Value) {ops : List Datum} {held : List Ref}
    (hg : m.Going .evalOperand) (hm : m.With v (p.operand f vs rest))
    (hheld : held ⊆ m.roots .evalOperand) (hrest : m.image.store.Spells lib rest (.list ops .nil))
    (ho : ops = ds ++ .call y es :: ds') (hsc : m.image.store.Scope lib p.env ρ)
    (hw : List.Forall₂ (fun d w => d.value? ρ = some w) ds ws)
    (hh : p.slots.length + (vs.length + 1 + ws.length) + 6 ≤ h) :
    Passes level held p.slots 0 h .evalOperand m .eval fun m' => ∃ rest,
      m'.image.store.Spells lib rest (.list ds' .nil) ∧
      m'.ToEval lib (.call y es) (p.operand f (vs ++ [v] ++ ws) rest) := by
  subst ho
  refine (hg.steps nofun fun m₁ hc => ?_).passes (fun r hr => .root (hheld hr)) nofun ?_
  · have ⟨hsc₁, hrest₁⟩ := hc.operand hm hrest hsc
    obtain ⟨m₂, he, hg₂, hi, hm₂⟩ := evalOperand_of_with (hc.value hm) hc.keeps.sound
    have hl : (vs ++ [v]).length = vs.length + 1 := by simp
    have ⟨rest', m', hop, hg', hr, hm'⟩ :=
      hm₂.suspend_spelled hg₂.gains.sound (hi ▸ hrest₁) (hi ▸ hsc₁) hw
    rw [hl] at hg'
    exact ⟨m', he.trans hop, (hg₂.mono (by omega)).trans <| hg'.mono (by omega), rest', hr, hm'⟩
  · rintro m' ⟨rest, -, hm'⟩
    exact hm'.slots ▸ Place.operand_above.slots

-- A special form.
theorem ToEval.form (hg : m.Going .eval) (hm : m.ToEval lib (.call x ds) p)
    (hsc : m.image.store.Scope lib p.env ρ) (hx : ρ.lookup x = some f)
    (hf : ∀ s, isSpecial s f = .ok true) (hh : p.slots.length + 3 ≤ h) :
    Passes level p.held p.slots 0 h .eval m (.apply f) (ToForm lib ds p) := by
  refine (hg.steps nofun fun m₁ hc => ?_).passes (fun r hr => .root <| hm.mem_roots hr) nofun
    fun m' hm' => hm'.slots ▸ List.suffix_refl _
  have hsc₁ := hc.scope hsc hm.toPlaced
  obtain ⟨args, m₂, he, hg₂, hi, ha, hgl, hv, hsl⟩ :=
    eval_call (hc.toEval hm) hc.keeps.sound hsc₁ hx
  obtain ⟨m', he', hg', hi', hm', hargs⟩ :=
    evalOperator_of_special hgl hv hsl hg₂.gains.sound (hf _)
  refine ⟨m', he.trans he', (hg₂.mono hh).trans <| hg'.mono (Nat.zero_le _), hm', ?_⟩
  rw [hargs, hi']
  exact ha

end Machine
end StepLisp
