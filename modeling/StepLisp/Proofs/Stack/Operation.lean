import StepLisp.Proofs.Stack.Effect

namespace StepLisp

namespace Control

variable {c : Control} {slot : Slot} {σ : List Slot}

theorem pop_eq (h : c.stack.slots = slot :: σ) :
    pop c = .ok slot { c with stack := .ofSlots σ } := by
  obtain ⟨exp, env, cont, val, argl, ⟨slots, depth, hd⟩, highWater⟩ := c
  simp only at h
  subst h hd
  rfl

theorem popValue_eq {v : Value} (h : c.stack.slots = .value v :: σ) :
    popValue c = .ok v { c with stack := .ofSlots σ } := by
  simp [popValue, bind, EStateM.bind, pop_eq h, pure, EStateM.pure]

theorem popEnv_eq {e : FrameId} (h : c.stack.slots = .env e :: σ) :
    popEnv c = .ok e { c with stack := .ofSlots σ } := by
  simp [popEnv, bind, EStateM.bind, pop_eq h, pure, EStateM.pure]

theorem popStep_eq {k : Step} (h : c.stack.slots = .step k :: σ) :
    popStep c = .ok k { c with stack := .ofSlots σ } := by
  simp [popStep, bind, EStateM.bind, pop_eq h, pure, EStateM.pure]

theorem popCallee_eq {callee : Callee} (h : c.stack.slots = .callee callee :: σ) :
    popCallee c = .ok callee { c with stack := .ofSlots σ } := by
  simp [popCallee, bind, EStateM.bind, pop_eq h, pure, EStateM.pure]

theorem popCheckpoint_eq {checkpoint : Checkpoint} (h : c.stack.slots = .trap checkpoint :: σ) :
    popCheckpoint c = .ok checkpoint { c with stack := .ofSlots σ } := by
  simp [popCheckpoint, bind, EStateM.bind, pop_eq h, pure, EStateM.pure]

theorem modify_eq {f : Control → Control} : (modify f : Act Control Unit) c = .ok () (f c) :=
  rfl

theorem restore_eq {e : FrameId} {k : Step} (h : c.stack.slots = .env e :: .step k :: σ) :
    restore c = .ok () { c with env := e, cont := k, stack := .ofSlots σ } := by
  have hk : ({ c with env := e, stack := .ofSlots (.step k :: σ) } : Control).stack.slots =
      .step k :: σ := rfl
  simp [restore, bind, EStateM.bind, popEnv_eq h, modify_eq, popStep_eq hk]

theorem peekEnv_eq {e : FrameId} (h : c.stack.slots = .env e :: σ) : peekEnv c = .ok e c := by
  simp [peekEnv, Stack.top?, h]

end Control

namespace Machine

variable {α β : Type} {enters walks : Prop} {k k' : Step} {σ : List Slot} {f : α → Run β}
  {e : FrameId} {v : Value}
variable {Q : Step → Step → List Slot → Prop} {R : β → Step → List Slot → Prop}

theorem get_bind_eq {f : Machine → Run β} {m : Machine} : (get >>= f) m = f m m :=
  rfl

theorem val_bind_eq {f : Value → Run β} {m : Machine} : (val >>= f) m = f m.control.val m :=
  rfl

theorem onControl_bind_eq {x : Act Control α} {m : Machine} {a : α} {c : Control}
    (h : x m.control = .ok a c) : (liftM x >>= f) m = f a { m with control := c } := by
  show (onControl x >>= f) m = _
  simp only [onControl, Bind.bind, EStateM.bind, h]

-- An operation on the control state that succeeds.
theorem onControl_bind {x : Act Control α}
    (h : ∀ c, c.cont = k → c.stack.slots = σ → ∃ a c', x c = .ok a c' ∧
      (TrapsFit σ → TrapsFit c'.stack.slots) ∧ Effect enters walks c'.cont c'.stack.slots (f a) R) :
    Effect enters walks k σ (liftM x >>= f) R := by
  intro m hm
  have ⟨a, c', hc, ht, hf⟩ := h m.control hm.cont_eq hm.slots_eq
  rw [onControl_bind_eq hc]
  exact .of_follows .control <| hf _ ⟨rfl, rfl, ht hm.traps, hm.continuations⟩

theorem push_bind {slot : Slot} {f : Unit → Run β} (ht : ∀ c, slot = .trap c → Fits c.cont σ)
    (hf : Effect enters walks k (slot :: σ) (f ()) R) :
    Effect enters walks k σ (liftM (Control.push slot) >>= f) R := by
  refine onControl_bind fun c hk hσ => ⟨(), _, rfl, ?_⟩
  subst hk hσ
  exact ⟨fun h => TrapsFit.cons_iff.mpr ⟨ht, h⟩, hf⟩

theorem pushValue_bind {v : Value} {f : Unit → Run β}
    (hf : Effect enters walks k (.value v :: σ) (f ()) R) :
    Effect enters walks k σ (liftM (Control.push (.value v)) >>= f) R :=
  push_bind nofun hf

theorem pushEnv_bind {e : FrameId} {f : Unit → Run β}
    (hf : Effect enters walks k (.env e :: σ) (f ()) R) :
    Effect enters walks k σ (liftM (Control.push (.env e)) >>= f) R :=
  push_bind nofun hf

theorem save_bind {f : Unit → Run β}
    (hf : ∀ e, Effect enters walks k (.env e :: .step k :: σ) (f ()) R) :
    Effect enters walks k σ (liftM Control.save >>= f) R := by
  refine onControl_bind fun c hk hσ => ⟨(), _, rfl, ?_⟩
  subst hk hσ
  exact ⟨by simp [Control.pushed, Stack.push], hf c.env⟩

theorem popValue_bind {f : Value → Run β} (hf : Effect enters walks k σ (f v) R) :
    Effect enters walks k (.value v :: σ) (liftM Control.popValue >>= f) R :=
  onControl_bind fun _ hk hσ => ⟨v, _, Control.popValue_eq hσ, by simp [Stack.ofSlots], hk ▸ hf⟩

theorem popEnv_bind {f : FrameId → Run β} (hf : Effect enters walks k σ (f e) R) :
    Effect enters walks k (.env e :: σ) (liftM Control.popEnv >>= f) R :=
  onControl_bind fun _ hk hσ => ⟨e, _, Control.popEnv_eq hσ, by simp [Stack.ofSlots], hk ▸ hf⟩

theorem popCallee_bind {callee : Callee} {f : Callee → Run β}
    (hf : Effect enters walks k σ (f callee) R) :
    Effect enters walks k (.callee callee :: σ) (liftM Control.popCallee >>= f) R :=
  onControl_bind fun _ hk hσ =>
    ⟨callee, _, Control.popCallee_eq hσ, by simp [Stack.ofSlots], hk ▸ hf⟩

theorem popCheckpoint_bind {c : Checkpoint} {f : Checkpoint → Run β}
    (hf : Effect enters walks k σ (f c) R) :
    Effect enters walks k (.trap c :: σ) (liftM Control.popCheckpoint >>= f) R :=
  onControl_bind fun _ hk hσ =>
    ⟨c, _, Control.popCheckpoint_eq hσ, by simp [Stack.ofSlots], hk ▸ hf⟩

theorem restore_bind {f : Unit → Run β} (hf : Effect enters walks k' σ (f ()) R) :
    Effect enters walks k (.env e :: .step k' :: σ) (liftM Control.restore >>= f) R :=
  onControl_bind fun _ _ hσ => ⟨(), _, Control.restore_eq hσ, by simp [Stack.ofSlots], hf⟩

theorem peekEnv_bind {f : FrameId → Run β} (hf : Effect enters walks k (.env e :: σ) (f e) R) :
    Effect enters walks k (.env e :: σ) (liftM Control.peekEnv >>= f) R :=
  onControl_bind fun c hk hσ =>
    ⟨e, c, Control.peekEnv_eq hσ, fun h => hσ ▸ h, by rw [hk, hσ]; exact hf⟩

theorem setCont_bind {f : Unit → Run β} (hf : Effect enters walks k' σ (f ()) R) :
    Effect enters walks k σ (setCont k' >>= f) R :=
  fun _ hm => .of_follows .control <| hf _ ⟨rfl, hm.slots_eq, hm.traps, hm.continuations⟩

-- Ways to end

theorem deliver_effect (h : Q k k σ) : Effect enters walks k σ (deliver v) Q :=
  fun _ hm => ⟨.control, k, σ, ⟨hm.cont_eq, hm.slots_eq, hm.traps, hm.continuations⟩,
    hm.cont_eq ▸ h⟩

theorem proceed_effect (h : Q k k σ) : Effect enters walks k σ proceed Q :=
  fun m hm => ⟨.refl m, k, σ, hm, hm.cont_eq ▸ h⟩

theorem evaluate_effect (h : Q .eval k σ) : Effect enters walks k σ (evaluate v) Q :=
  fun _ hm => ⟨.control, k, σ, ⟨hm.cont_eq, hm.slots_eq, hm.traps, hm.continuations⟩, h⟩

theorem evaluateFor_effect (h : Q .eval k' σ) : Effect enters walks k σ (evaluateFor k' v) Q :=
  fun _ hm => ⟨.control, k', σ, ⟨rfl, hm.slots_eq, hm.traps, hm.continuations⟩, h⟩

theorem expandFor_effect (h : Q .quasi k' σ) : Effect enters walks k σ (expandFor k' v) Q :=
  fun _ hm => ⟨.control, k', σ, ⟨rfl, hm.slots_eq, hm.traps, hm.continuations⟩, h⟩

theorem applyTo_effect {args : Value} (h : Q (.apply v) k σ) :
    Effect enters walks k σ (applyTo args v) Q :=
  fun _ hm => ⟨.control, k, σ, ⟨hm.cont_eq, hm.slots_eq, hm.traps, hm.continuations⟩, h⟩

end Machine
end StepLisp
