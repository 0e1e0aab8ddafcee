import StepLisp.Proofs.Stack.Step

namespace StepLisp

open Act
open Slot (values)

theorem Slab.eq_or_get?_of_insert {α : Type} {s : Slab α} {a b : α} {i : Nat}
    (h : (s.insert a).2.get? i = some b) : a = b ∨ s.get? i = some b := by
  unfold insert at h
  split at h
  case h_1 =>
    simp only [get?, Array.getElem?_setIfInBounds] at h ⊢
    grind
  case h_2 =>
    simp only [get?, Array.getElem?_push] at h ⊢
    grind

-- Whether a template stands for the value of an expression.
def Store.isUnquote (s : Store) (form : Value) : Bool :=
  match s.uncons? form with
  | some (.symbol x, _) => x = .unquote
  | _ => false

namespace Machine

variable {α β : Type} {enters walks : Prop} {k : Step} {σ : List Slot} {e : FrameId}
variable {vs : List Value} {hands : Bool} {m : Machine} {R : β → Step → List Slot → Prop}

-- Where it matters what has been read

theorem query_bind {g : Store → α} {f : α → Run β} (hf : ∀ s, Effect enters walks k σ (f (g s)) R) :
    Effect enters walks k σ (query g >>= f) R :=
  fun m hm => hf m.image.store m hm

theorem get_bind {f : Machine → Run β} (hf : ∀ m, At k σ m → Effect enters walks k σ (f m) R) :
    Effect enters walks k σ (get >>= f) R :=
  fun m hm => hf m hm m hm

-- Templates

theorem quasiquote_effect : Effect enters walks k σ quasiquote (Goes true k σ) := by
  refine argl_plain.effect_bind fun _ => single_plain.effect_bind fun exp m hm => ?_
  exact ⟨.control, k, σ, ⟨hm.cont_eq, hm.slots_eq, hm.traps, hm.continuations⟩, .quasi rfl⟩

theorem templateElement_effect {id : PairId} (vs : List Value) :
    Effect enters walks k (values vs ++ .sentinel :: .env e :: .step k :: σ)
      (templateElement (.pair id))
      (Goes false k σ) := by
  refine query_bind fun s => ?_
  simp only [Store.uncons?]
  split
  case isTrue hr =>
    refine pushValue_bind <| save_bind fun e => query_plain.effect_bind fun parts => ?_
    split
    case h_1 =>
      split
      case isTrue =>
        exact single_plain.effect_bind fun _ => evaluateFor_effect <| .evalFor rfl <|
          .quasiSpliced hr
      case isFalse => exact expandFor_effect <| .quasiFor rfl <| .quasiNext hr
    case h_2 => exact expandFor_effect <| .quasiFor rfl <| .quasiNext hr
  case isFalse => exact write_plain.effect_bind fun _ => .throw rfl

theorem expandList_effect {id : PairId} :
    Effect enters walks k σ (expandList (.pair id)) (Goes false k σ) :=
  save_bind fun _ => push_bind nofun <| templateElement_effect []

theorem expand_outcome (hm : At k σ m) :
    Outcome enters walks m (Goes (m.image.store.isUnquote m.control.exp) k σ) (expand m) := by
  have hg : (get : Run Machine) m = .ok m m := rfl
  simp only [expand, hg, query, Bind.bind, EStateM.bind]
  generalize m.control.exp = form
  generalize m.image.store = s
  refine Effect.outcome ?_ hm
  cases form <;> simp only [Store.uncons?, Store.isUnquote]
  case pair id =>
    split
    case h_1 => contradiction
    case h_2 x operands he =>
      simp only [he]
      split
      case isTrue hx =>
        exact save_bind fun _ => single_plain.effect_bind fun _ =>
          expandFor_effect <| .quasiFor (hx ▸ rfl) .quasiRewrap
      case isFalse =>
        split
        case isTrue hx =>
          exact single_plain.effect_bind fun _ => evaluate_effect <| .eval <| decide_eq_true hx
        case isFalse hx =>
          split
          case isTrue => exact (single_plain.bind fun _ => .pure).effect_bind fun _ => .throw rfl
          case isFalse => exact decide_eq_false hx ▸ expandList_effect
    case h_3 hn he =>
      split
      case h_1 h => exact (hn _ _ <| Option.some.inj <| he.symm.trans h).elim
      case h_2 => exact expandList_effect
  all_goals exact deliver_effect .deliver

theorem rewrap_effect {k' : Step} :
    Effect enters walks k' (.env e :: .step k :: σ) rewrap (Goes hands k σ) :=
  restore_bind <| val_keeps.effect_bind fun _ => cons_plain.effect_bind fun _ =>
    cons_plain.effect_bind fun _ => deliver_effect .deliver

theorem templateRest_effect {rest : Value} (vs : List Value) (hr : rest.isListLike) :
    Effect enters walks k (values vs ++ .sentinel :: .env e :: .step k :: σ) (templateRest rest)
      (Goes false k σ) := by
  cases rest <;> simp only [Value.isListLike, Bool.false_eq_true] at hr
  case nil => exact .pure .quasiFinish
  case pair => exact templateElement_effect vs

theorem templateNext_effect {k' : Step} {e' : FrameId} {rest : Value} (hr : rest.isListLike) :
    Effect enters walks k' (.env e :: .step k :: .value rest ::
      (values vs ++ .sentinel :: .env e' :: .step k :: σ)) templateNext (Goes false k σ) :=
  restore_bind <| popValue_bind <| val_keeps.effect_bind fun v => push_bind nofun <|
    templateRest_effect (v :: vs) hr

theorem pushAll_bind {items : List Value} {f : PUnit → Run β}
    (hf : Effect enters walks k (values items.reverse ++ σ) (f ⟨⟩) R) :
    Effect enters walks k σ ((forIn items PUnit.unit fun item _ => do
      liftM (Control.push (.value item)); Pure.pure (.yield PUnit.unit)) >>= f) R := by
  induction items generalizing σ
  case nil => exact hf
  case cons item items hi =>
    rw [List.forIn_cons, bind_assoc, bind_assoc]
    refine push_bind nofun <| hi ?_
    simpa [values] using hf

theorem templateSpliced_effect {k' : Step} {e' : FrameId} {rest : Value} (hr : rest.isListLike) :
    Effect enters walks k' (.env e :: .step k :: .value rest ::
      (values vs ++ .sentinel :: .env e' :: .step k :: σ)) templateSpliced (Goes false k σ) := by
  refine restore_bind <| popValue_bind <| val_keeps.effect_bind fun list =>
    query_plain.effect_bind fun items => ?_
  split
  case h_1 => exact write_plain.effect_bind fun _ => .throw rfl
  case h_2 items =>
    refine pushAll_bind ?_
    rw [← List.append_assoc]
    rw [show values items.reverse ++ values vs = values (items.reverse ++ vs) by simp [values]]
    exact templateRest_effect _ hr

theorem templateFinish_effect {k' : Step} :
    Effect enters walks k' (values vs ++ .sentinel :: .env e :: .step k :: σ) templateFinish
      (Goes hands k σ) :=
  gatherAll_bind fun _ => restore_bind <| deliver_effect .deliver

-- Traps

theorem trap_effect (h : Fits k σ) : Effect enters walks k σ trap (Goes false k σ) := by
  refine argl_plain.effect_bind fun _ => single_plain.effect_bind fun _ => get_bind fun m hm => ?_
  have hk := hm.cont_eq
  subst hk
  exact push_bind (by rintro _ ⟨⟩; exact h) <| evaluateFor_effect <| .evalFor rfl .trapDone

theorem resumeAt_bind {k' : Step} {c : Checkpoint} {f : Unit → Run β}
    (hf : Effect enters walks c.cont σ (f ()) R) :
    Effect enters walks k' σ (resumeAt c >>= f) R := by
  rw [resumeAt, bind_assoc]
  exact setEnv_keeps.effect_bind fun _ => setCont_bind hf

theorem trapDone_effect {k' : Step} :
    Effect enters walks k' (.trap ⟨e, k⟩ :: σ) trapDone (Goes hands k σ) :=
  popCheckpoint_bind <| resumeAt_bind <| val_keeps.effect_bind fun _ =>
    cons_plain.effect_bind fun _ => deliver_effect .deliver

theorem unwind_bind {f : Option Checkpoint → Run β} (hm : At k σ m)
    (hn : Outcome enters walks m R (f none m))
    (hs : ∀ c σ', Fits c.cont σ' → Effect enters walks k σ' (f (some c)) R) :
    Outcome enters walks m R ((liftM Control.unwind >>= f) m) := by
  rw [show (liftM Control.unwind : Run _) = onControl Control.unwind from rfl]
  simp only [Bind.bind, EStateM.bind, onControl, Control.unwind]
  cases hu : m.control.stack.unwind?
  case none => exact hn
  case some u =>
    obtain ⟨c, s⟩ := u
    have hc := Stack.fits_of_unwind? (hm.slots_eq ▸ hm.traps) hu
    exact (hs c s.slots hc).outcome ⟨hm.cont_eq, rfl, hc.trapsFit, hm.continuations⟩

-- A fault that is caught goes on where the checkpoint says.
theorem recover_outcome {fault : Fault} (h : Failed walks fault m) :
    Outcome enters walks m Pending (recover fault m) := by
  have hm : At m.control.cont m.control.stack.slots m := ⟨rfl, rfl, h.traps, h.continuations⟩
  have hf : Outcome enters walks m Pending ((throw fault : Run Step) m) := ⟨.refl m, h⟩
  unfold recover
  split
  case isTrue =>
    refine unwind_bind hm hf fun c σ' hc => resumeAt_bind ?_
    refine (store_plain Store.allocString_obeys).effect_bind fun _ => ?_
    exact cons_plain.effect_bind fun _ => deliver_effect <| .deliver hc
  case isFalse => exact hf

-- Continuations

theorem capture_bind {f : Value → Run β} (h : Fits k σ)
    (hf : ∀ v, Effect enters walks k σ (f v) R) :
    Effect enters walks k σ (capture >>= f) R := by
  intro m hm
  have hg : m.Follows enters (capture.left m) :=
    ⟨rfl, rfl, rfl, .of_cells rfl rfl rfl rfl (Nat.le_succ _), .refl _, .inr rfl⟩
  refine .of_follows hg <| hf _ _ ⟨hm.cont_eq, hm.slots_eq, hm.traps, fun i c hc => ?_⟩
  cases Slab.eq_or_get?_of_insert hc
  case inl hc =>
    subst hc
    rw [hm.cont_eq, hm.slots_eq]
    exact h
  case inr hc => exact hm.continuations i c hc

theorem callWithContinuation_effect (h : Fits k σ) :
    Effect enters walks k σ callWithContinuation (Goes hands k σ) := by
  refine argl_plain.effect_bind fun args => ?_
  split
  case isTrue => exact capture_bind h fun _ => deliver_effect .deliver
  case isFalse =>
    refine query_plain.effect_bind fun parts => ?_
    split
    case h_1 =>
      split
      case isTrue =>
        exact capture_bind h fun _ => cons_plain.effect_bind fun _ => applyTo_effect .apply
      case isFalse => exact write_plain.effect_bind fun _ => .throw rfl
    case h_2 => exact .throw rfl

theorem continuation_bind {id : ContinuationId} {f : Continuation → Run β}
    (hf : ∀ c, Fits c.step c.stack.slots → Effect enters walks k σ (f c) R) :
    Effect enters walks k σ (queryOrFail (·.continuation id) >>= f) R := by
  intro m hm
  simp only [Bind.bind, EStateM.bind, queryOrFail, Store.continuation]
  cases hr : m.image.store.continuations.get? id.index
  case none => exact ⟨.refl m, hm.failed <| .plain rfl⟩
  case some c => exact hf c (hm.continuations _ _ hr) m hm

theorem controlResume_bind {stack : Stack} {f : Unit → Run β} (ht : TrapsFit stack.slots)
    (hf : Effect enters walks k stack.slots (f ()) R) :
    Effect enters walks k σ (liftM (Control.resume stack) >>= f) R :=
  onControl_bind fun _ hk _ => ⟨(), _, rfl, fun _ => ht, hk ▸ hf⟩

-- The stack that was captured takes the place of the present one.
theorem resume_effect {id : ContinuationId} : Effect enters walks k σ (resume id) Pending := by
  refine resumeArgument_plain.effect_bind fun _ => continuation_bind fun c hc => ?_
  refine controlResume_bind hc.trapsFit <| setEnv_keeps.effect_bind fun _ => ?_
  exact setCont_bind <| deliver_effect <| .deliver hc

end Machine
end StepLisp
