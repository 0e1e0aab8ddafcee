import StepLisp.Proofs.Detached.Basic
import StepLisp.Proofs.Stack.Fits

namespace StepLisp

open Act
open Slot (values)

-- The stacks of captured continuations fit.
def Store.ContinuationsFit (s : Store) : Prop :=
  ∀ i k, s.continuations.get? i = some k → Fits k.step k.stack.slots

-- Whether they do is decided by what the continuations go back to.
theorem Store.ContinuationsFit.of_snapshots_eq {s s' : Store} (h : s.ContinuationsFit)
    (he : s'.continuations.snapshots = s.continuations.snapshots) : s'.ContinuationsFit := by
  intro i k hk
  have hs : s.continuations.snapshots i = some k.snapshot := by
    rw [← he, Slab.snapshots, hk, Option.map_some]
  have ⟨k', hk', hs⟩ := Option.map_eq_some_iff.mp hs
  injection hs with hstep hstack
  exact hstep ▸ hstack ▸ h i k' hk'

theorem Store.ContinuationsFit.of_eq {s s' : Store} (h : s.ContinuationsFit)
    (he : s'.continuations = s.continuations) : s'.ContinuationsFit :=
  h.of_snapshots_eq <| congrArg _ he

namespace Machine

structure At (k : Step) (σ : List Slot) (m : Machine) : Prop where
  cont_eq : m.control.cont = k
  slots_eq : m.control.stack.slots = σ
  traps : TrapsFit σ
  continuations : m.image.store.ContinuationsFit

structure Failed (walks : Prop) (fault : Fault) (m : Machine) : Prop where
  admitted : fault.Admitted (walks ∨ ¬m.image.store.Scoped) ¬m.image.store.HasRoom
  traps : TrapsFit m.control.stack.slots
  continuations : m.image.store.ContinuationsFit

variable {α β : Type} {enters walks : Prop} {k k' : Step} {σ σ' : List Slot} {x : Run α}
variable {f : α → Run β} {Q Q' : α → Step → List Slot → Prop} {R : β → Step → List Slot → Prop}
variable {m m' : Machine} {r : EStateM.Result Fault Machine α}

theorem At.failed {fault : Fault} (hm : At k σ m)
    (h : fault.Admitted (walks ∨ ¬m.image.store.Scoped) ¬m.image.store.HasRoom) :
    Failed walks fault m :=
  ⟨h, hm.slots_eq ▸ hm.traps, hm.continuations⟩

theorem At.of_eq (hm : At k σ m) (hc : m'.control = m.control)
    (hs : m'.snapshots = m.snapshots) : At k σ m' :=
  ⟨hc ▸ hm.cont_eq, hc ▸ hm.slots_eq, hm.traps, hm.continuations.of_snapshots_eq hs⟩

theorem Failed.proper {fault : Fault} (h : Failed walks fault m) : fault.isStack = false :=
  h.admitted.isStack_eq

-- How a machine can be left. Whether a closure may have been entered is said by `enters`, and
-- whether there may have been a walk without end, by `walks`.
def Outcome (enters walks : Prop) (m : Machine) (Q : α → Step → List Slot → Prop) :
    EStateM.Result Fault Machine α → Prop
  | .ok a m' => m.Follows enters m' ∧ ∃ k' σ', At k' σ' m' ∧ Q a k' σ'
  | .error fault m' => m.Follows enters m' ∧ Failed walks fault m'

namespace Outcome

theorem imp {enters' walks' : Prop} (h : Outcome enters walks m Q r) (he : enters → enters')
    (hw : walks → walks') (hq : ∀ a k' σ', Q a k' σ' → Q' a k' σ') :
    Outcome enters' walks' m Q' r := by
  cases r
  case ok a m' =>
    have ⟨hf, k', σ', hm, h⟩ := h
    exact ⟨hf.imp he, k', σ', hm, hq a k' σ' h⟩
  case error =>
    have ⟨hf, hm⟩ := h
    exact ⟨hf.imp he, { hm with admitted := hm.admitted.imp (.imp_left hw) id }⟩

theorem weaken (h : Outcome enters walks m Q r) (hq : ∀ a k' σ', Q a k' σ' → Q' a k' σ') :
    Outcome enters walks m Q' r :=
  h.imp id id hq

theorem of_follows (hm : m.Follows enters m') (h : Outcome enters walks m' Q r) :
    Outcome enters walks m Q r := by
  cases r <;> exact ⟨hm.trans h.left, h.right⟩

end Outcome

theorem Follows.control {c : Control} : m.Follows enters { m with control := c } :=
  ⟨rfl, rfl, rfl, .refl _, .refl _, .inr rfl⟩

def Effect (enters walks : Prop) (k : Step) (σ : List Slot) (x : Run α)
    (Q : α → Step → List Slot → Prop) : Prop :=
  ∀ m, At k σ m → Outcome enters walks m Q (x m)

theorem Outcome.bind (h : Outcome enters walks m Q (x m))
    (hf : ∀ a k' σ', Q a k' σ' → Effect enters walks k' σ' (f a) R) :
    Outcome enters walks m R ((x >>= f) m) := by
  simp only [Bind.bind, EStateM.bind]
  cases hr : x m <;> rw [hr] at h
  case ok a m' =>
    have ⟨hm, k', σ', hm', hq⟩ := h
    exact .of_follows hm <| hf a k' σ' hq m' hm'
  case error => exact h

namespace Effect

theorem pure {a : α} (h : Q a k σ) : Effect enters walks k σ (Pure.pure a) Q :=
  fun m hm => ⟨.refl m, k, σ, hm, h⟩

theorem throw {fault : Fault} (h : fault.isPlain) : Effect enters walks k σ (throw fault) Q :=
  fun m hm => ⟨.refl m, hm.failed <| .plain h⟩

theorem endless : Effect enters True k σ (MonadExcept.throw .endless) Q :=
  fun m hm => ⟨.refl m, hm.failed <| .endless <| .inl trivial⟩

theorem bind (hx : Effect enters walks k σ x Q)
    (hf : ∀ a k' σ', Q a k' σ' → Effect enters walks k' σ' (f a) R) :
    Effect enters walks k σ (x >>= f) R :=
  fun m hm => (hx m hm).bind hf

theorem weaken (hx : Effect enters walks k σ x Q) (h : ∀ a k' σ', Q a k' σ' → Q' a k' σ') :
    Effect enters walks k σ x Q' :=
  fun m hm => (hx m hm).weaken h

end Effect

-- The same from where the machine was before its control state changed.
theorem Effect.outcome {c : Control} (hx : Effect enters walks k σ x Q)
    (hm : At k σ { m with control := c }) : Outcome enters walks m Q (x { m with control := c }) :=
  .of_follows .control <| hx _ hm

-- The action neither pushes nor pops, and leaves the continuation register alone.
def Keeps (enters walks : Prop) (x : Run α) : Prop :=
  ∀ k σ, Effect enters walks k σ x fun _ k' σ' => k' = k ∧ σ' = σ

theorem Keeps.effect_bind (hx : Keeps enters walks x)
    (hf : ∀ a, Effect enters walks k σ (f a) R) : Effect enters walks k σ (x >>= f) R :=
  (hx k σ).bind fun a _ _ ⟨hk, hσ⟩ => hk ▸ hσ ▸ hf a

-- Actions that are detached from the control state

theorem Detached.keeps (hd : Detached True x) (h : Obeys (conduct enters walks) x) :
    Keeps enters walks x := by
  intro k σ m hm
  have hm' := hm.of_eq (hd.control_left m) (hd.spares.view_left m)
  have hr := h m
  cases he : x m <;> rw [he] at hr
  case ok =>
    rw [left_of_ok he] at hm'
    exact ⟨hr, k, σ, hm', rfl, rfl⟩
  case error =>
    rw [left_of_error he] at hm'
    exact ⟨hr.left, hm'.failed hr.right⟩

theorem Plain.keeps (h : Plain walks True x) : Keeps enters walks x :=
  h.toDetached.keeps <| h.obeys.imp (fun _ _ hf => hf.imp False.elim) fun _ _ => id

theorem Plain.effect_bind (hx : Plain walks True x) (hf : ∀ a, Effect enters walks k σ (f a) R) :
    Effect enters walks k σ (x >>= f) R :=
  hx.keeps.effect_bind hf

-- Registers

theorem Keeps.of_control
    (h : ∀ m, ∃ a c, x m = .ok a { m with control := c } ∧ c.cont = m.control.cont ∧
      c.stack = m.control.stack) : Keeps enters walks x := by
  intro k σ m hm
  have ⟨a, c, hx, hk, hσ⟩ := h m
  rw [hx]
  exact ⟨.control, k, σ, ⟨hk ▸ hm.cont_eq, hσ ▸ hm.slots_eq, hm.traps, hm.continuations⟩, rfl, rfl⟩

theorem val_keeps : Keeps enters walks val :=
  .of_control fun m => ⟨_, m.control, rfl, rfl, rfl⟩

theorem setEnv_keeps {e : FrameId} : Keeps enters walks (setEnv e) :=
  .of_control fun _ => ⟨_, _, rfl, rfl, rfl⟩

theorem setArgl_keeps {v : Value} : Keeps enters walks (setArgl v) :=
  .of_control fun _ => ⟨_, _, rfl, rfl, rfl⟩

end Machine
end StepLisp
