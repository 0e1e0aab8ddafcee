import StepLisp.Proofs.Detached.Basic
import StepLisp.Proofs.Stack.Fits

namespace StepLisp

open Act

-- The checkpoints among the slots of a stack, the innermost first. What a trap goes on with is its
-- own step and environment, and the stack beneath it.
def checkpoints : List Slot → List Snapshot
  | [] => []
  | .trap c :: rest => ⟨c.cont, .ofSlots rest, c.env⟩ :: checkpoints rest
  | _ :: rest => checkpoints rest

theorem checkpoints_cons {slot : Slot} {σ : List Slot} (h : ∀ c, slot ≠ .trap c) :
    checkpoints (slot :: σ) = checkpoints σ := by
  cases slot
  case trap c => exact absurd rfl (h c)
  all_goals rfl

-- The stack is unwound to the innermost checkpoint.
theorem Stack.unwindSlots_eq {slots : List Slot} {depth : Nat} {hd : depth = slots.length} :
    unwindSlots slots depth hd =
      (checkpoints slots).head?.map fun s => (⟨s.env, s.step⟩, s.stack) := by
  induction slots generalizing depth
  case nil => rfl
  case cons slot rest hi =>
    cases slot
    case trap =>
      subst hd
      rfl
    all_goals exact hi

namespace Machine

def checkpoints (m : Machine) : List Snapshot :=
  StepLisp.checkpoints m.control.stack.slots

def resumable (m : Machine) : List Snapshot × (Nat → Option Snapshot) :=
  (m.checkpoints, m.snapshots)

variable {α β : Type} {x : Run α} {f : α → Run β}

-- The action leaves alone what can be gone back to, unless it complains of the stack.
def Guards (x : Run α) : Prop :=
  ∀ m, match x m with
    | .ok _ m' => m'.resumable = m.resumable
    | .error fault m' => fault.isStack = false → m'.resumable = m.resumable

namespace Guards

theorem pure {a : α} : Guards (Pure.pure a) :=
  fun _ => rfl

theorem throw {fault : Fault} : Guards (throw fault : Run α) :=
  fun _ _ => rfl

theorem bind (hx : Guards x) (hf : ∀ a, Guards (f a)) : Guards (x >>= f) := by
  intro m
  have h₁ := hx m
  simp only [Bind.bind, EStateM.bind]
  cases hr : x m <;> simp only [hr] at h₁ ⊢
  case error => exact h₁
  case ok a m' =>
    have h₂ := hf a m'
    rw [h₁] at h₂
    exact h₂

end Guards

theorem Detached.spares_resumable (h : Detached True x) : Spares resumable x := by
  intro m
  have hc := h.control_left m
  have hs := h.spares m
  cases hr : x m <;> simp only [hr] at hs ⊢
  case ok => simp only [resumable, checkpoints, left_of_ok hr ▸ hc, hs]
  case error =>
    exact ⟨by simp only [resumable, checkpoints, left_of_error hr ▸ hc, hs.left], hs.right⟩

theorem Detached.guards (h : Detached True x) : Guards x := by
  intro m
  have hs := h.spares_resumable m
  cases hr : x m <;> simp only [hr] at hs ⊢
  case ok => exact hs
  case error => exact fun _ => hs.left

theorem Plain.guards_bind (hx : Plain True True x) (hf : ∀ a, Guards (f a)) : Guards (x >>= f) :=
  hx.guards.bind hf

-- Operations on the control state

theorem liftM_control (x : Act Control α) : (liftM x : Run α) = onControl x :=
  rfl

theorem liftM_of_ok {x : Act Control α} {m : Machine} {a : α} {c : Control}
    (h : x m.control = .ok a c) : (liftM x : Run α) m = .ok a { m with control := c } := by
  simp only [liftM_control, onControl, h]

theorem liftM_bind {x : Act Control α} {f : α → Act Control β} :
    (liftM (x >>= f) : Run β) = liftM x >>= fun a => liftM (f a) := by
  funext m
  simp only [liftM_control, onControl, Bind.bind, EStateM.bind]
  cases x m.control <;> rfl

theorem push_guards {slot : Slot} (h : ∀ c, slot ≠ .trap c) :
    Guards (liftM (Control.push slot) : Run Unit) :=
  fun m => congrArg (·, m.snapshots) <| checkpoints_cons h

theorem pushValue_guards {v : Value} : Guards (liftM (Control.push (.value v)) : Run Unit) :=
  push_guards nofun

theorem pushEnv_guards {e : FrameId} : Guards (liftM (Control.push (.env e)) : Run Unit) :=
  push_guards nofun

theorem save_guards : Guards (liftM Control.save : Run Unit) :=
  fun _ => rfl

theorem resumable_of_pop {m : Machine} {slot : Slot} {s : Stack}
    (h : m.control.stack.pop? = some (slot, s)) (hs : ∀ c, slot ≠ .trap c) :
    resumable { m with control := { m.control with stack := s } } = m.resumable := by
  rcases hm : m.control.stack with ⟨slots, depth, hd⟩
  rw [hm] at h
  cases slots <;> cases h
  simp only [resumable, checkpoints, hm, checkpoints_cons hs]
  rfl

-- A slot is taken off the stack, and it is an error that it is a checkpoint.
theorem pop_guards {f : Slot → Run β} (hf : ∀ slot, (∀ c, slot ≠ .trap c) → Guards (f slot))
    (ht : ∀ c m, ∃ fault m', f (.trap c) m = .error fault m' ∧ fault.isStack) :
    Guards (liftM Control.pop >>= f) := by
  intro m
  simp only [liftM_control, Bind.bind, EStateM.bind, onControl, Control.pop]
  cases hp : m.control.stack.pop?
  case none => exact nofun
  case some p =>
    obtain ⟨slot, s⟩ := p
    simp only
    rcases Classical.em (∃ c, slot = .trap c) with ⟨c, rfl⟩ | hs
    case inl =>
      have ⟨fault, m', hr, hs⟩ := ht c { m with control := { m.control with stack := s } }
      simp [hr, hs]
    case inr =>
      have hs : ∀ c, slot ≠ .trap c := fun c hc => hs ⟨c, hc⟩
      have h := hf slot hs { m with control := { m.control with stack := s } }
      rw [resumable_of_pop hp hs] at h
      exact h

theorem popValue_guards : Guards (liftM Control.popValue : Run Value) := by
  rw [Control.popValue, liftM_bind]
  refine pop_guards (fun slot _ => ?_) fun _ _ => ⟨_, _, rfl, rfl⟩
  cases slot
  case value => exact .pure
  all_goals exact .throw

theorem popEnv_guards : Guards (liftM Control.popEnv : Run FrameId) := by
  rw [Control.popEnv, liftM_bind]
  refine pop_guards (fun slot _ => ?_) fun _ _ => ⟨_, _, rfl, rfl⟩
  cases slot
  case env => exact .pure
  all_goals exact .throw

theorem popStep_guards : Guards (liftM Control.popStep : Run Step) := by
  rw [Control.popStep, liftM_bind]
  refine pop_guards (fun slot _ => ?_) fun _ _ => ⟨_, _, rfl, rfl⟩
  cases slot
  case step => exact .pure
  all_goals exact .throw

theorem popCallee_guards : Guards (liftM Control.popCallee : Run Callee) := by
  rw [Control.popCallee, liftM_bind]
  refine pop_guards (fun slot _ => ?_) fun _ _ => ⟨_, _, rfl, rfl⟩
  cases slot
  case callee => exact .pure
  all_goals exact .throw

theorem restore_guards : Guards (liftM Control.restore : Run Unit) := by
  simp only [Control.restore, liftM_bind]
  refine popEnv_guards.bind fun _ => .bind (fun _ => rfl) fun _ => ?_
  exact popStep_guards.bind fun _ _ => rfl

theorem peekEnv_guards : Guards (liftM Control.peekEnv : Run FrameId) := by
  intro m
  simp only [liftM_control, onControl, Control.peekEnv]
  cases m.control.stack.top?
  case none => exact nofun
  case some slot =>
    cases slot
    case env => rfl
    all_goals exact nofun

-- Registers, and ways to end

theorem get_guards : Guards (get : Run Machine) :=
  fun _ => rfl

theorem val_guards : Guards val :=
  fun _ => rfl

theorem setEnv_guards {e : FrameId} : Guards (setEnv e) :=
  fun _ => rfl

theorem setVal_guards {v : Value} : Guards (setVal v) :=
  fun _ => rfl

theorem setArgl_guards {v : Value} : Guards (setArgl v) :=
  fun _ => rfl

theorem deliver_guards {v : Value} : Guards (deliver v) :=
  fun _ => rfl

theorem proceed_guards : Guards proceed :=
  fun _ => rfl

theorem evaluate_guards {exp : Value} : Guards (evaluate exp) :=
  fun _ => rfl

theorem evaluateFor_guards {k : Step} {exp : Value} : Guards (evaluateFor k exp) :=
  fun _ => rfl

theorem applyTo_guards {args proc : Value} : Guards (applyTo args proc) :=
  fun _ => rfl

end Machine
end StepLisp
