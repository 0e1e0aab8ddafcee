import StepLisp.Proofs.Store.Spine
import StepLisp.Proofs.Template.Refinement

namespace StepLisp

open Machine Relation

namespace Store

variable {s s' s'' : Store} {held held' : List Ref} {r r' : Ref} {o : Object} {n : Nat}

-- What given references lead to, along objects that are there.
inductive Refers (s : Store) (held : List Ref) : Ref → Prop
  | root {r : Ref} : r ∈ held → Refers s held r
  | step {r r' : Ref} {o : Object} : Refers s held r → s.object? r = some o → r' ∈ o.refs →
    Refers s held r'

namespace Refers

theorem mono (h : s.Refers held r) (hh : ∀ r ∈ held, s.Refers held' r) : s.Refers held' r := by
  induction h
  case root h => exact hh _ h
  case step ho hr hi => exact .step hi ho hr

theorem reachable (h : s.Refers held r) : s.Reachable held r := by
  induction h
  case root h => exact .root h
  case step ho hr hi => exact hi.of_object? ho hr

end Refers

-- The objects that are led to are the same.
structure Keeps (s : Store) (held : List Ref) (s' : Store) : Prop where
  sound : s'.Sound
  object? {r : Ref} {o : Object} : s.Refers held r → s.object? r = some o → s'.object? r = some o

namespace Keeps

theorem refl (h : s.Sound) : s.Keeps held s :=
  ⟨h, fun _ => id⟩

theorem refers (h : s.Keeps held s') (hr : s.Refers held r) : s'.Refers held r := by
  induction hr
  case root hr => exact .root hr
  case step hr ho hm hi => exact .step hi (h.object? hr ho) hm

theorem trans (h : s.Keeps held s') (h' : s'.Keeps held s'') : s.Keeps held s'' :=
  ⟨h'.sound, fun hr ho => h'.object? (h.refers hr) (h.object? hr ho)⟩

theorem mono (h : s.Keeps held s') (hh : ∀ r ∈ held', s.Refers held r) : s.Keeps held' s' :=
  ⟨h.sound, fun hr ho => h.object? (hr.mono hh) ho⟩

theorem of_retains (h : s.Retains held s') : s.Keeps held s' :=
  ⟨h.sound, fun hr ho => h.object?_eq hr.reachable ho⟩

theorem of_gains (h : s.Gains n s') : s.Keeps held s' :=
  ⟨h.sound, fun _ => h.object?⟩

end Keeps

-- A collection takes no cell away that could be given out.
theorem room_collect {roots : List Ref} (hs : s.Sound)
    (hl : ∀ r, s.Reachable roots r → ∃ o, s.object? r = some o) :
    s.room ≤ (s.collect roots).2.room := by
  have hsub : s.freeCells ⊆ (s.collect roots).2.freeCells := by
    rintro ⟨i⟩ hi
    refine mem_freeCells_collect_iff.mpr ⟨hs.cells_lt _ hi, fun hr => ?_⟩
    have ⟨o, ho⟩ := hl _ hr
    have hn : s.object? (⟨i⟩ : PairId).ref = none := by rw [object?_pair, if_pos hi]
    cases hn.symm.trans ho
  have hle := (hs.cells_nodup.subperm hsub).length_le
  have ht : (s.collect roots).2.totalCells = s.totalCells := by
    simp [Store.collect, sweep, totalCells]
  have hc : (s.collect roots).2.capacity = s.capacity := rfl
  rw [room, room, ht, hc]
  omega

end Store

def World.withStore (w : World) (s : Store) : World :=
  { w with image := { w.image with store := s } }

namespace Machine

variable {m m' m'' : Machine} {next next' : Step} {held held' : List Ref} {c c' h h' level : Nat}
variable {σ τ : List Slot} {s s' s'' : Step × Machine}

-- States between two steps

-- What holds of every state that a session comes to between two steps.
def Going (next : Step) (m : Machine) : Prop :=
  Disciplined next m ∧ ∃ ρ, m.Alike True ρ m ∧ next.Alike ρ next

theorem going_of_reached {rest : Reader.Contents (Datum × Nat)} {n : Nat}
    (hr : Reached (.running rest n next m)) : m.Going next :=
  whole_invariant.holds hr

namespace Going

theorem sound (hg : m.Going next) : m.image.store.Sound := by
  obtain ⟨-, _, ha, -⟩ := hg
  exact ha.image.store.sound

theorem exists_object (hg : m.Going next) {r : Ref}
    (hr : m.image.store.Reachable (m.roots next) r) : ∃ o, m.image.store.object? r = some o := by
  obtain ⟨-, _, ha, hk⟩ := hg
  have ⟨o, _, ho, _⟩ := ha.image.store.objects <| ha.rel_of_reachable hk hr
  exact ⟨o, ho⟩

theorem refers (hg : m.Going next) {r : Ref} (hh : held ⊆ m.roots next)
    (hr : m.image.store.Reachable held r) : m.image.store.Refers held r := by
  induction hr
  case root hr => exact .root hr
  case step r r' hr hm hi =>
    have hroots : m.image.store.Reachable (m.roots next) r :=
      (hi.mono fun _ h => .root (hh h)).reachable
    obtain ⟨o, ho⟩ := hg.exists_object hroots
    refine .step hi ho ?_
    rw [Store.refs_eq_content, (Store.object?_eq_some_iff.mp ho).right] at hm
    exact hm

-- Nothing comes to be referred to by what is held, as long as that is kept.
theorem refers_of_keeps (hg : m.Going next) {s : Store} {r : Ref} (hh : held ⊆ m.roots next)
    (hk : m.image.store.Keeps held s) (hr : s.Refers held r) : m.image.store.Refers held r := by
  induction hr
  case root hr => exact .root hr
  case step r r' o _ ho hm hi =>
    have ⟨o', ho'⟩ := hg.exists_object (hi.mono fun _ h => .root (hh h)).reachable
    cases ho.symm.trans (hk.object? hi ho')
    exact .step hi ho' hm

theorem turn (hg : m.Going next) (ht : Turn (next, m) (next', m')) : m'.Going next' := by
  have ha := whole_invariant.advance hg
  rwa [ht.right] at ha

theorem global_eq (hg : m.Going next) (ht : Turn (next, m) (next', m')) : m'.global = m.global := by
  have hd := hg.left.collectBefore
  have ho := step_outcome hd.pending hd.at
  have ha := ht.right
  have hc : (m.countStep.collectBefore next).global = m.global := by
    rw [collectBefore_eq]
    rfl
  simp only [advance] at ha
  cases hr : step next (m.countStep.collectBefore next) <;> rw [hr] at ha ho
  case ok =>
    cases ha
    exact ho.left.global_eq.trans hc
  case error fault m₁ =>
    have hr : Outcome True _ m₁ Pending (recover fault m₁) := recover_outcome ho.right
    rw [show recover fault m₁ = .ok next' m' from ha] at hr
    exact hr.left.global_eq.trans (ho.left.global_eq.trans hc)

theorem of_over (hg : s.2.Going s.1) (ho : Over σ s s') : s'.2.Going s'.1 :=
  whole_invariant.turns ho hg

theorem global_eq_of_over (hg : s.2.Going s.1) (ho : Over σ s s') : s'.2.global = s.2.global := by
  induction ho
  case refl => rfl
  case tail ho ht hi => exact ((hg.of_over ho).global_eq ht.left).trans hi

end Going

-- What is preserved

-- The objects that are held are as they were, and so is what is around the machine. The stack has
-- not been deeper than `h`.
structure Leaves (held : List Ref) (h : Nat) (m m' : Machine) : Prop where
  keeps : m.image.store.Keeps held m'.image.store
  world : m'.world = m.world.withStore m'.image.store
  highWater : m'.control.highWater ≤ max m.control.highWater h

-- Besides, the objects that have been allocated take up at most so many cells.
structure Allocates (held : List Ref) (c h : Nat) (m m' : Machine) : Prop
    extends Leaves held h m m' where
  room : m.image.store.room ≤ m'.image.store.room + c

namespace Leaves

theorem refl (hs : m.image.store.Sound) : Leaves held h m m :=
  ⟨.refl hs, rfl, Nat.le_max_left _ _⟩

theorem trans (hm : Leaves held h m m') (hm' : Leaves held h m' m'') : Leaves held h m m'' where
  keeps := hm.keeps.trans hm'.keeps
  world := by rw [hm'.world, hm.world]; rfl
  highWater := by have := hm.highWater; have := hm'.highWater; omega

theorem mono (hm : Leaves held h m m') (hh : ∀ r ∈ held', m.image.store.Refers held r)
    (hh' : h ≤ h') : Leaves held' h' m m' where
  keeps := hm.keeps.mono hh
  world := hm.world
  highWater := by have := hm.highWater; omega

theorem global_eq (hm : Leaves held h m m') : m'.global = m.global :=
  congrArg World.global hm.world

end Leaves

namespace Allocates

theorem refl (hs : m.image.store.Sound) : Allocates held c h m m :=
  ⟨.refl hs, by omega⟩

theorem trans (hm : Allocates held c h m m') (hm' : Allocates held c' h m' m'') :
    Allocates held (c + c') h m m'' where
  toLeaves := hm.toLeaves.trans hm'.toLeaves
  room := by have := hm.room; have := hm'.room; omega

theorem mono (hm : Allocates held c h m m') (hh : ∀ r ∈ held', m.image.store.Refers held r)
    (hc : c ≤ c') (hh' : h ≤ h') : Allocates held' c' h' m m' where
  toLeaves := hm.toLeaves.mono hh hh'
  room := by have := hm.room; omega

end Allocates

-- Runs

-- A step that changes nothing. What a collection before it has left is as it was.
structure Quiet (s s' : Step × Machine) : Prop where
  turn : Turn s s'
  object? {r : Ref} {o : Object} :
    (s.2.countStep.collectBefore s.1).image.store.object? r = some o →
    s'.2.image.store.object? r = some o
  world : s'.2.world = s.2.world.withStore s'.2.image.store

-- A procedure is about to be applied, with so many slots on the stack.
def AppliesAt (level : Nat) (s : Step × Machine) : Prop :=
  (∃ f, s.1 = .apply f) ∧ s.2.control.stack.slots.length = level

-- Quiet steps that do not touch the stack `σ`. None of them applies a procedure at the given level.
def Stretch (level : Nat) (σ : List Slot) : Step × Machine → Step × Machine → Prop :=
  ReflTransGen fun s s' => Quiet s s' ∧ ¬AppliesAt level s ∧ σ <:+ s'.2.control.stack.slots

theorem Stretch.toOver (hs : Stretch level σ s s') : Over σ s s' :=
  ReflTransGen.mono (fun _ _ h => ⟨h.left.turn, h.right.right⟩) _ _ hs

theorem Stretch.mono (hs : Stretch level τ s s') (hσ : σ <:+ τ) : Stretch level σ s s' :=
  ReflTransGen.mono (fun _ _ h => ⟨h.left, h.right.left, hσ.trans h.right.right⟩) _ _ hs

theorem Over.suffix (ho : Over σ s s') (hσ : σ <:+ s.2.control.stack.slots) :
    σ <:+ s'.2.control.stack.slots := by
  cases ho
  case refl => exact hσ
  case tail ht => exact ht.right

-- What a session does in as many steps.
theorem Over.course (ho : Over σ s s') : ∃ j, ∀ rest n,
    Course (.running rest (n + j) s.1 s.2) (.running rest n s'.1 s'.2) := by
  induction ho
  case refl => exact ⟨0, fun _ _ => .refl⟩
  case tail ht hi =>
    have ⟨j, hj⟩ := hi
    refine ⟨j + 1, fun rest n => ?_⟩
    have hc := hj rest (n + 1)
    rw [show n + 1 + j = n + (j + 1) by omega] at hc
    exact hc.tail (.step ht.left.left ht.left.right)

-- What a collection, if there is one, leaves of a machine that is about to take a step.
structure Cleared (next : Step) (m m' : Machine) : Prop where
  control : m'.control = m.control
  world : m'.world = m.world.withStore m'.image.store
  keeps : m.image.store.Keeps (m.roots next) m'.image.store
  room : m.image.store.room ≤ m'.image.store.room

theorem Going.cleared (hg : m.Going next) : Cleared next m (m.countStep.collectBefore next) where
  control := control_collectBefore
  world := by rw [collectBefore_eq]; rfl
  keeps := .of_retains <| @retains_collectBefore m.countStep next hg.sound
  room := by
    rw [store_collectBefore]
    split
    case isFalse => exact Nat.le_refl _
    case isTrue => exact Store.room_collect hg.sound fun _ => hg.exists_object

-- What a transition, or a part of one, does when it changes nothing.
structure Goes (c h : Nat) (m m' : Machine) : Prop where
  gains : m.image.store.Gains c m'.image.store
  world : m'.world = m.world.withStore m'.image.store
  highWater : m'.control.highWater ≤ max m.control.highWater h

namespace Goes

theorem trans (hm : Goes c h m m') (hm' : Goes c' h m' m'') : Goes (c + c') h m m'' where
  gains := hm.gains.trans hm'.gains
  world := by rw [hm'.world, hm.world]; rfl
  highWater := by have := hm.highWater; have := hm'.highWater; omega

theorem mono (hm : Goes c h m m') (hh : h ≤ h') : Goes c h' m m' where
  gains := hm.gains
  world := hm.world
  highWater := by have := hm.highWater; omega

-- Only registers and stack have changed.
theorem of_control (hs : m.image.store.Sound) (hi : m'.image = m.image) (hw : m'.world = m.world)
    (hh : m'.control.highWater ≤ max m.control.highWater h) : Goes 0 h m m' where
  gains := by rw [hi]; exact .refl hs
  world := by rw [hi, hw]; rfl
  highWater := hh

end Goes

-- Contracts

-- The machine takes one quiet step, to a machine of which `P` holds.
def Steps (next : Step) (m : Machine) (c h : Nat) (next' : Step) (P : Machine → Prop) : Prop :=
  ∃ m', Quiet (next, m) (next', m') ∧ Allocates (m.roots next) c h m m' ∧ m'.Going next' ∧ P m'

-- It comes to such a machine in some number of quiet steps on top of `σ`.
def Passes (level : Nat) (held : List Ref) (σ : List Slot) (c h : Nat) (next : Step) (m : Machine)
    (next' : Step) (P : Machine → Prop) : Prop :=
  ∃ m', Stretch level σ (next, m) (next', m') ∧ Allocates held c h m m' ∧ m'.Going next' ∧ P m'

-- One quiet step, by what it does after a collection.
theorem Going.steps_of_eq {P : Machine → Prop} (hg : m.Going next) (hn : next ≠ .halt)
    (hstep : step next (m.countStep.collectBefore next) = .ok next' m')
    (hm : Goes c h (m.countStep.collectBefore next) m') (hp : P m') : Steps next m c h next' P := by
  have hc := hg.cleared
  have ht : Turn (next, m) (next', m') := ⟨hn, advance_of_ok hstep⟩
  have hworld : m'.world = m.world.withStore m'.image.store := by rw [hm.world, hc.world]; rfl
  refine ⟨m', ⟨ht, fun ho => hm.gains.object? ho, hworld⟩,
    ⟨⟨hc.keeps.trans (.of_gains hm.gains), hworld, ?_⟩, ?_⟩, hg.turn ht, hp⟩
  · have := hm.highWater
    rwa [hc.control] at this
  · have := hc.room
    have := hm.gains.room
    omega

theorem Going.steps {P : Machine → Prop} (hg : m.Going next) (hn : next ≠ .halt)
    (hs : ∀ m₁, Cleared next m m₁ → ∃ m', step next m₁ = .ok next' m' ∧ Goes c h m₁ m' ∧ P m') :
    Steps next m c h next' P :=
  have ⟨_, hstep, hm, hp⟩ := hs _ hg.cleared
  hg.steps_of_eq hn hstep hm hp

namespace Passes

variable {P Q : Machine → Prop} {next'' : Step} {C : Nat}

theorem done (hg : m.Going next) (hp : P m) : Passes level held σ c h next m next P :=
  ⟨m, .refl, .refl hg.sound, hg, hp⟩

theorem imp (hs : Passes level held σ c h next m next' P) (hp : ∀ m, P m → Q m) :
    Passes level held σ c h next m next' Q := by
  obtain ⟨m, hs, ha, hg, h⟩ := hs
  exact ⟨m, hs, ha, hg, hp m h⟩

-- What has been preserved is known afterwards.
theorem frame (hs : Passes level held σ c h next m next' P) :
    Passes level held σ c h next m next' fun m' => P m' ∧ Allocates held c h m m' := by
  obtain ⟨m, hs, ha, hg, hp⟩ := hs
  exact ⟨m, hs, ha, hg, hp, ha⟩

theorem mono (hs : Passes level held' τ c h next m next' P) (hσ : σ <:+ τ)
    (hh : ∀ r ∈ held, m.image.store.Refers held' r) (hc : c ≤ c') (hh' : h ≤ h') :
    Passes level held σ c' h' next m next' P := by
  obtain ⟨m, hs, ha, hg, hp⟩ := hs
  exact ⟨m, hs.mono hσ, ha.mono hh hc hh', hg, hp⟩

theorem bind (hs : Passes level held σ c h next m next' P) (c' : Nat)
    (hn : ∀ m', Allocates held c h m m' → m'.Going next' → P m' →
      Passes level held σ c' h next' m' next'' Q) (hC : c + c' ≤ C) :
    Passes level held σ C h next m next'' Q := by
  obtain ⟨m', hs, ha, hg, hp⟩ := hs
  obtain ⟨m'', hs', ha', hg', hq⟩ := hn m' ha hg hp
  exact ⟨m'', hs.trans hs', (ha.trans ha').mono (fun _ => .root) hC (Nat.le_refl _), hg', hq⟩

end Passes

theorem Steps.passes {P : Machine → Prop} (hs : Steps next m c h next' P)
    (hh : ∀ r ∈ held, m.image.store.Refers (m.roots next) r) (hl : ¬AppliesAt level (next, m))
    (hσ : ∀ m', P m' → σ <:+ m'.control.stack.slots) :
    Passes level held σ c h next m next' P := by
  obtain ⟨m', hq, ha, hg, hp⟩ := hs
  exact ⟨m', .single ⟨hq, hl, hσ m' hp⟩, ha.mono hh (Nat.le_refl _) (Nat.le_refl _), hg, hp⟩

end Machine
end StepLisp
