import StepLisp.Proofs.Template.Expansion

namespace StepLisp

open Act Relation

-- The steps that expand templates.
def Step.expands : Step → Bool
  | quasi | quasiRewrap | quasiNext | quasiSpliced | quasiFinish => true
  | _ => false

theorem Step.ne_halt_of_expands {k : Step} (h : k.expands) : k ≠ .halt := by
  rintro rfl
  cases h

-- What a computation holds on to for later.
def Control.kept (c : Control) : List Ref :=
  c.cont.refs ++ c.env.ref :: c.stack.slots.flatMap Slot.refs

namespace Machine

open Possibly (pause)
open Direct (within)

-- One step of a session.
def Turn (s s' : Step × Machine) : Prop :=
  s.1 ≠ .halt ∧ advance s.1 s.2 = .ok s'.1 s'.2

-- Steps that do not touch the stack `σ`.
def Over (σ : List Slot) : Step × Machine → Step × Machine → Prop :=
  ReflTransGen fun s s' => Turn s s' ∧ σ <:+ s'.2.control.stack.slots

-- Steps after each of which there is something on top of `σ`.
def Inside (σ : List Slot) : Step × Machine → Step × Machine → Prop :=
  ReflTransGen fun s s' => Turn s s' ∧ σ <:+ s'.2.control.stack.slots ∧
    σ ≠ s'.2.control.stack.slots

-- From a step on, the machine comes to an outcome. A value is there when `k` is next, on the stack
-- `σ`. A fault is one that can be caught where one on `σ` can.
def Comes (next : Step) (m : Machine) (k : Step) (σ : List Slot) :
    EStateM.Result Interruption World Value → Prop
  | .ok v w => ∃ m', Over σ (next, m) (k, m') ∧ m'.world = w ∧ m'.control.cont = k ∧
    m'.control.stack.slots = σ ∧ m'.control.val = v
  | .error (.fault fault) w => ∃ next' m' m'', Over σ (next, m) (next', m') ∧ next' ≠ .halt ∧
    step next' (m'.countStep.collectBefore next') = .error fault m'' ∧ m''.world = w ∧
    m''.checkpoints = StepLisp.checkpoints σ
  | .error .unfinished _ | .error .beyond _ => False

-- A step of the expansion that `m₀` is about to begin has led there.
def Expanding (m₀ : Machine) (next : Step) (m : Machine) : Prop :=
  ∃ k m₁, Inside m₀.control.stack.slots (.quasi, m₀) (k, m₁) ∧ k.expands ∧
    advance k m₁ = .ok next m

variable {k k₁ next next' : Step} {σ σ₁ : List Slot} {m₀ m m' : Machine}
variable {r : EStateM.Result Interruption World Value} {s s' : Step × Machine}

-- Runs

theorem Over.mono (h : Over σ₁ s s') (hσ : σ <:+ σ₁) : Over σ s s' :=
  ReflTransGen.mono (fun _ _ h => ⟨h.left, hσ.trans h.right⟩) _ _ h

theorem Over.inside (h : Over σ₁ s s') (hσ : σ <:+ σ₁) (hn : σ ≠ σ₁) : Inside σ s s' := by
  refine ReflTransGen.mono (fun _ s h => ⟨h.left, hσ.trans h.right, fun he => ?_⟩) _ _ h
  rw [← he] at h
  exact hn <| hσ.eq_of_length_le h.right.length_le

theorem Expanding.inside (h : Expanding m₀ next m) (hσ : m₀.control.stack.slots <:+ σ)
    (hm : σ <:+ m.control.stack.slots) (hn : m₀.control.stack.slots ≠ m.control.stack.slots) :
    Inside m₀.control.stack.slots (.quasi, m₀) (next, m) := by
  have ⟨k, m₁, hi, hk, ha⟩ := h
  exact hi.tail ⟨⟨Step.ne_halt_of_expands hk, ha⟩, hσ.trans hm, hn⟩

-- What is left of a transition comes to an outcome.
def Attains (k : Step) (σ : List Slot) : EStateM.Result Fault Machine Step →
    EStateM.Result Interruption World Value → Prop
  | .ok next m, r => σ <:+ m.control.stack.slots ∧ Comes next m k σ r
  | .error fault m, .error (.fault fault') w =>
    fault = fault' ∧ m.world = w ∧ m.checkpoints = StepLisp.checkpoints σ
  | .error .., _ => False

theorem Comes.after (h : Over σ (next, m) (next', m')) (hm : Comes next' m' k σ r) :
    Comes next m k σ r := by
  rcases r with ⟨v, w⟩ | ⟨fault | _ | _, w⟩
  · have ⟨m'', hr, hm''⟩ := hm
    exact ⟨m'', h.trans hr, hm''⟩
  · have ⟨k₁, m₁, m₂, hr, hm₂⟩ := hm
    exact ⟨k₁, m₁, m₂, h.trans hr, hm₂⟩
  all_goals exact hm

theorem Attains.comes (hn : next ≠ .halt)
    (h : Attains k σ (step next (m.countStep.collectBefore next)) r) : Comes next m k σ r := by
  cases hr : step next (m.countStep.collectBefore next) <;> rw [hr] at h
  case ok => exact .after (.single ⟨⟨hn, advance_of_ok hr⟩, h.left⟩) h.right
  case error fault m' =>
    rcases r with ⟨v, w⟩ | ⟨fault' | _ | _, w⟩
    · exact h.elim
    · obtain ⟨rfl, hw⟩ := h
      exact ⟨next, m, m', .refl, hn, hr, hw⟩
    all_goals exact h.elim

-- The machine comes to something that a recursion may come to, unless that is unfinished.
def Realizes (next : Step) (m : Machine) (k : Step) (σ : List Slot) (x : Possibly Value) : Prop :=
  ∃ r, x m.world r ∧ (Comes next m k σ r ∨ ∃ w, r = .error .unfinished w)

-- So does what is left of a transition of the expansion that `m₀` is about to begin.
def Settles (m₀ : Machine) (res : EStateM.Result Fault Machine Step) (k : Step) (σ : List Slot)
    (w : World) (x : Possibly Value) : Prop :=
  (∀ next m, res = .ok next m → Expanding m₀ next m) →
    ∃ r, x w r ∧ (Attains k σ res r ∨ ∃ w', r = .error .unfinished w')

-- What the registers and the stack hold on to is not lost to a collection.
theorem mem_roots_of_slots {next : Step} {r : Ref}
    (h : r ∈ m.control.stack.slots.flatMap Slot.refs) : r ∈ m.roots next :=
  mem_roots_of_control <| by simp [Control.roots, h]

theorem mem_roots_of_val {next : Step} {r : Ref} (h : r ∈ m.control.val.refs) : r ∈ m.roots next :=
  mem_roots_of_control <| by simp [Control.roots, h]

theorem mem_roots_of_exp {next : Step} {r : Ref} (h : r ∈ m.control.exp.refs) : r ∈ m.roots next :=
  mem_roots_of_control <| by simp [Control.roots, h]

-- A step of the expansion, before which garbage may be collected.
theorem Realizes.of_settles {held : List Ref} {f : Unit → Possibly Value} (hx : next.expands)
    (hi : Inside m₀.control.stack.slots (.quasi, m₀) (next, m)) (hh : held ⊆ m.roots next)
    (h : ∀ m', m'.control = m.control → Settles m₀ (step next m') k σ m'.world (f ())) :
    Realizes next m k σ (pause held >>= f) := by
  have ⟨r, hr, ha⟩ := h (m.countStep.collectBefore next) control_collectBefore
    fun next' m' hs => ⟨next, m, hi, hx, advance_of_ok hs⟩
  refine ⟨r, .inl ⟨(), _, ?_, hr⟩, ha.imp_left (·.comes (Step.ne_halt_of_expands hx))⟩
  unfold collectBefore
  split
  case isTrue => exact .inr ⟨_, hh, rfl⟩
  case isFalse => exact .inl rfl

-- A computation on top of `σ` is followed by a step that goes on with its value.
theorem Realizes.bind {x : Possibly Value} {f : Value → Possibly Value}
    (hx : Realizes next m k₁ σ₁ x) (hσ : σ <:+ σ₁)
    (hc : StepLisp.checkpoints σ₁ = StepLisp.checkpoints σ)
    (h : ∀ m', Over σ₁ (next, m) (k₁, m') → m'.control.stack.slots = σ₁ →
      Realizes k₁ m' k σ (f m'.control.val)) : Realizes next m k σ (x >>= f) := by
  obtain ⟨r, hr, hm | ⟨w, rfl⟩⟩ := hx
  case inr => exact ⟨_, .inr ⟨_, w, hr, rfl⟩, .inr ⟨w, rfl⟩⟩
  case inl =>
    rcases r with ⟨v, w⟩ | ⟨fault | _ | _, w⟩
    · obtain ⟨m', ho, rfl, -, hs, rfl⟩ := hm
      have ⟨r, hr', hm'⟩ := h m' ho hs
      exact ⟨r, .inl ⟨_, _, hr, hr'⟩, hm'.imp_left (.after (ho.mono hσ))⟩
    · have ⟨k₂, m₂, m₃, ho, hn, hs, hw, hc'⟩ := hm
      refine ⟨.error (.fault fault) w, .inr ⟨_, w, hr, rfl⟩, .inl ?_⟩
      exact ⟨k₂, m₂, m₃, ho.mono hσ, hn, hs, hw, hc'.trans hc⟩
    all_goals exact hm.elim

namespace Settles

variable {α : Type} {res : EStateM.Result Fault Machine Step} {w : World} {e : FrameId}
variable {x : Possibly Value} {f' : α → Possibly Value}

theorem of_realizes (h : Expanding m₀ next m → Realizes next m k σ x)
    (hσ : σ <:+ m.control.stack.slots) : Settles m₀ (.ok next m) k σ m.world x := by
  intro he
  have ⟨r, hr, hm⟩ := h <| he next m rfl
  exact ⟨r, hr, hm.imp_left fun hm => ⟨hσ, hm⟩⟩

theorem unfinished (h : ∃ w', x w (.error .unfinished w')) : Settles m₀ res k σ w x := by
  have ⟨w', hw⟩ := h
  exact fun _ => ⟨_, hw, .inr ⟨w', rfl⟩⟩

theorem liftM_bind {d : Direct α} {a : α} {w' : World} (hd : d w = .ok a w')
    (h : Settles m₀ res k σ w' (f' a)) : Settles m₀ res k σ w (liftM d >>= f') := by
  intro he
  have ⟨r, hr, hm⟩ := h he
  exact ⟨r, .inl ⟨a, w', hd.symm, hr⟩, hm⟩

theorem read_bind {g : Store → α} (h : Settles m₀ res k σ w (f' (g w.image.store))) :
    Settles m₀ res k σ w (liftM (Direct.read g) >>= f') :=
  liftM_bind rfl h

theorem deliver {v : Value} (hk : m.control.cont = k) (hs : m.control.stack.slots = σ) :
    Settles m₀ (deliver v m) k σ m.world (pure v) := by
  subst hk hs
  exact fun _ => ⟨_, rfl, .inl ⟨List.suffix_refl _, _, .refl, rfl, rfl, rfl, rfl⟩⟩

theorem fail {d : Direct α} {fault : Fault} (hd : d m.world = .error (.fault fault) m.world)
    (hc : m.checkpoints = StepLisp.checkpoints σ) :
    Settles m₀ (.error fault m) k σ m.world (liftM d >>= f') :=
  fun _ => ⟨_, .inr ⟨_, _, hd.symm, rfl⟩, .inl ⟨rfl, rfl, hc⟩⟩

theorem within_bind {y : Run α} {f : α → Run Step} (hy : Plain True False y)
    (he : m.control.env = e) (hc : m.checkpoints = StepLisp.checkpoints σ)
    (h : ∀ a m', m'.control = m.control → Settles m₀ (f a m') k σ m'.world (f' a)) :
    Settles m₀ ((y >>= f) m) k σ m.world (liftM (within e y) >>= f') := by
  have hs : within e y m.world = seen (y m) := native_eq_seen hy.toDetached he False.elim
  have hl := hy.toDetached.control_left m
  cases hr : y m <;> rw [hr] at hs
  case ok a m' =>
    rw [left_of_ok hr] at hl
    rw [bind_of_ok hr]
    intro hx
    have ⟨r, hr', hm⟩ := h a m' hl hx
    exact ⟨r, .inl ⟨a, m'.world, hs.symm, hr'⟩, hm⟩
  case error fault m' =>
    rw [left_of_error hr] at hl
    rw [bind_of_error hr]
    refine fun _ => ⟨_, .inr ⟨_, _, hs.symm, rfl⟩, .inl ⟨rfl, rfl, ?_⟩⟩
    rw [checkpoints, hl]
    exact hc

-- A transition puts work aside for a step that goes on with the value of something else. The
-- stack then keeps what that step needs.
theorem suspend {held : List Ref} {x : Possibly Value} {g : Value → Possibly Value}
    (hk : k₁.expands) (hσ₀ : m₀.control.stack.slots <:+ σ) (hσ : σ <:+ m.control.stack.slots)
    (hn : m₀.control.stack.slots ≠ m.control.stack.slots)
    (hc : StepLisp.checkpoints m.control.stack.slots = StepLisp.checkpoints σ)
    (hh : held ⊆ m.control.stack.slots.flatMap Slot.refs)
    (hx : Expanding m₀ next m → Inside m₀.control.stack.slots (.quasi, m₀) (next, m) →
      Realizes next m k₁ m.control.stack.slots x)
    (h : ∀ m', m'.control.stack.slots = m.control.stack.slots →
      Settles m₀ (step k₁ m') k σ m'.world (g m'.control.val)) :
    Settles m₀ (.ok next m) k σ m.world (do
      let v ← x
      pause (v.refs ++ held)
      g v) := by
  refine .of_realizes (fun he => ?_) hσ
  have hi := he.inside hσ₀ hσ hn
  refine .bind (hx he hi) hσ hc fun m₁ ho h₁ => ?_
  refine .of_settles hk (hi.trans <| ho.inside (hσ₀.trans hσ) hn) (fun r hr => ?_) fun m₂ h₂ => ?_
  · rcases List.mem_append.mp hr with hr | hr
    · exact mem_roots_of_val hr
    · exact mem_roots_of_slots <| h₁ ▸ hh hr
  · rw [← h₂]
    exact h m₂ (by rw [h₂, h₁])

end Settles

end Machine
end StepLisp
