import StepLisp.Proofs.Detached.Deliver
import StepLisp.Proofs.Sequence
import StepLisp.Proofs.Stack.Operation

namespace StepLisp

open Act
open Slot (values)

theorem Value.isNil_eq_false {v : Value} (h : v ≠ .nil) : v.isNil = false := by
  cases v
  case nil => contradiction
  all_goals rfl

-- Whether one element is left of a list.
def Store.isLast (s : Store) (list : Value) : Bool :=
  (s.uncons? list).any fun (_, rest) => rest.isNil

namespace Machine

variable {α β : Type} {enters walks : Prop} {k : Step} {σ : List Slot} {e : FrameId}
variable {vs : List Value} {hands : Bool} {m : Machine}

-- Operands

theorem pop_bind {slot : Slot} {f : Slot → Run β} {R : β → Step → List Slot → Prop}
    (hf : Effect enters walks k σ (f slot) R) :
    Effect enters walks k (slot :: σ) (liftM Control.pop >>= f) R :=
  onControl_bind fun _ hk hσ =>
    ⟨slot, _, Control.pop_eq hσ, fun h => (TrapsFit.cons_iff.mp h).right, hk ▸ hf⟩

-- Everything down to the sentinel is taken off, and the sentinel with it.
theorem gather_effect {unexpected : Slot → Internal} {fuel : Nat} {list : Value}
    (h : vs.length < fuel) :
    Effect enters walks k (values vs ++ .sentinel :: σ) (gather unexpected fuel list)
      fun _ k' σ' => k' = k ∧ σ' = σ := by
  induction vs generalizing fuel list <;> obtain _ | fuel := fuel <;> try omega
  case nil => exact pop_bind <| .pure ⟨rfl, rfl⟩
  case cons v vs hi =>
    exact pop_bind <| cons_plain.effect_bind fun _ => hi <| Nat.lt_of_succ_lt_succ h

theorem depth_bind {f : Nat → Run β} {R : β → Step → List Slot → Prop}
    (hf : Effect enters walks k σ (f σ.length) R) : Effect enters walks k σ (depth >>= f) R := by
  intro m hm
  have hd : m.control.stack.depth = σ.length := hm.slots_eq ▸ m.control.stack.depth_eq
  simp only [Bind.bind, EStateM.bind, depth, hd]
  exact hf m hm

theorem gatherAll_bind {unexpected : Slot → Internal} {f : Value → Run β}
    {R : β → Step → List Slot → Prop} (hf : ∀ list, Effect enters walks k σ (f list) R) :
    Effect enters walks k (values vs ++ .sentinel :: σ)
      (depth >>= fun n => gather unexpected n .nil >>= f) R := by
  refine depth_bind <| (gather_effect ?_).bind ?_
  · simp [values]
  · rintro list _ _ ⟨rfl, rfl⟩
    exact hf list

theorem finishOperands_effect {k' : Step} {callee : Callee} :
    Effect enters walks k' (values vs ++ .sentinel :: .callee callee :: .env e :: .step k :: σ)
      finishOperands (Goes hands k σ) := by
  refine gatherAll_bind fun args => ?_
  refine popCallee_bind <| restore_bind <| setArgl_keeps.effect_bind fun _ => ?_
  cases callee
  case proc => exact .pure .apply
  case foreign => exact callForeign_plain.effect_bind fun _ => deliver_effect .deliver

theorem At.push (hm : At k σ m) (slot : Slot) (ht : ∀ c, slot = .trap c → Fits c.cont σ) :
    At k (slot :: σ) { m with control := m.control.pushed slot } where
  cont_eq := hm.cont_eq
  slots_eq := congrArg (List.cons slot) hm.slots_eq
  traps := TrapsFit.cons_iff.mpr ⟨ht, hm.traps⟩
  continuations := hm.continuations

theorem lookup_bind_of_not_found {x : Symbol} {f : Value → Run β}
    {R : β → Step → List Slot → Prop} (hm : At k σ m)
    (h : ∀ v, m.image.store.lookup? m.control.env x ≠ .ok (some v)) :
    Outcome enters walks m R ((lookup x >>= f) m) := by
  have ⟨fault, hf⟩ := lookup_of_not_found h
  have ho : Outcome enters walks m _ (lookup x m) := lookup_plain.keeps k σ m hm
  simp only [Bind.bind, EStateM.bind, hf] at ho ⊢
  exact ho

-- An operand that is a form is evaluated by further steps; a name that means nothing is a fault.
theorem operandsFrom_pause {k' : Step} {callee : Callee} {fuel : Nat} {i : PairId}
    (hm : At k' (values vs ++ .sentinel :: .callee callee :: .env e :: .step k :: σ) m)
    (hp : m.image.store.PausesAt m.control.env i) :
    Outcome enters walks m (Goes false k σ) (operandsFrom (fuel + 1) (.pair i) m) := by
  simp only [Store.PausesAt] at hp
  simp only [operandsFrom, query, Bind.bind, EStateM.bind]
  generalize m.image.store.car i = arg at hp
  cases arg
  case pair j =>
    have he : Effect enters walks k'
      (values vs ++ .sentinel :: .callee callee :: .env e :: .step k :: σ)
        (do
          Control.push (.value (m.image.store.cdr i))
          Control.push (.env (← env))
          evaluateFor .evalOperand (.pair j)) (Goes false k σ) :=
      pushValue_bind <| env_plain.effect_bind fun _ => pushEnv_bind <|
        evaluateFor_effect <| .evalFor rfl .evalOperand
    exact he m hm
  case symbol => exact lookup_bind_of_not_found hm hp
  all_goals exact hp.elim

-- The operands that are left are walked through without end only if they have none.
theorem operandsFrom_outcome {k' : Step} {callee : Callee} {fuel : Nat} {args : Value}
    (hm : At k' (values vs ++ .sentinel :: .callee callee :: .env e :: .step k :: σ) m)
    (hf : ∀ n, m.image.store.Stops (m.image.store.PausesAt m.control.env) n args → n ≤ fuel) :
    Outcome enters (m.image.store.Circles m.control.env args) m (Goes false k σ)
      (operandsFrom fuel args m) := by
  induction fuel generalizing args vs m <;> cases args
  case zero.nil | succ.nil => exact finishOperands_effect m hm
  case zero.pair =>
    refine ⟨.refl m, hm.failed <| .endless <| .inl fun ⟨n, hn⟩ => ?_⟩
    obtain rfl := Nat.le_zero.mp (hf n hn)
    cases hn
    contradiction
  case succ.pair fuel hi i =>
    by_cases hp : m.image.store.PausesAt m.control.env i
    case pos => exact operandsFrom_pause hm hp
    case neg =>
      have ⟨v, hv⟩ := operandsFrom_succ_of_not_pausesAt hp
      rw [hv]
      have hm' : At k' (values (v :: vs) ++ .sentinel :: .callee callee :: .env e :: .step k :: σ)
        (m.pushed v) := hm.push (.value v) nofun
      have ho := hi hm' fun n hn => Nat.le_of_succ_le_succ <| hf _ (.pair hp hn)
      exact .of_follows .control <| ho.imp id (.of_cdr hp) fun _ _ _ => id
  all_goals exact Effect.throw rfl m hm

theorem operands_outcome {k' : Step} {callee : Callee} {args : Value} (vs : List Value)
    (hm : At k' (values vs ++ .sentinel :: .callee callee :: .env e :: .step k :: σ) m) :
    Outcome enters (m.image.store.Circles m.control.env args) m (Goes false k σ)
      (operands args m) :=
  operandsFrom_outcome hm fun _ hn => hn.le_succ

-- Up to its operands, what a step does is decided by the slots and the objects that it finds.

-- The environment is set, and so much of the stack is left.
def lowered (m : Machine) (e : FrameId) (σ : List Slot) : Machine :=
  { m with control := { m.control with env := e, stack := .ofSlots σ } }

theorem At.lowered (hm : At k σ m) (e : FrameId) {τ : List Slot} (h : TrapsFit τ) :
    At k τ (m.lowered e τ) :=
  ⟨hm.cont_eq, rfl, h, hm.continuations⟩

theorem Follows.lowered (e : FrameId) (τ : List Slot) : m.Follows enters (m.lowered e τ) :=
  .control

theorem evalOperand_eq {rest : Value} (h : m.control.stack.slots = .env e :: .value rest :: σ) :
    evalOperand m = operands rest ((m.lowered e σ).pushed m.control.val) := by
  rw [evalOperand, onControl_bind_eq (Control.popEnv_eq h)]
  rfl

theorem evalOperator_eq {args : Value} (h : m.control.stack.slots = .value args :: .env e :: σ) :
    evalOperator m = (do
      if ← queryOrFail (isSpecial · m.control.val) then
        Control.restore
        applyTo args m.control.val
      else
        beginOperands (.proc m.control.val) args) (m.lowered e (.env e :: σ)) := by
  rw [evalOperator, val_bind_eq, onControl_bind_eq (Control.popValue_eq h)]
  rfl

theorem At.saved (hm : At k σ m) : At k (.env m.control.env :: .step k :: σ)
    { m with control := (m.control.pushed (.step m.control.cont)).pushed (.env m.control.env) } :=
  hm.cont_eq ▸ (hm.push (.step m.control.cont) nofun).push (.env m.control.env) nofun

-- The operands are left on the stack, and the operator's value is found.
def operated (m : Machine) (proc args : Value) : Machine :=
  let c := ((m.control.pushed (.step m.control.cont)).pushed (.env m.control.env)).pushed
    (.value args)
  { m with control := { c with val := proc } }

theorem At.operated (hm : At k σ m) (proc args : Value) :
    At k (.value args :: .env m.control.env :: .step k :: σ) (m.operated proc args) :=
  have h := hm.saved.push (.value args) nofun
  ⟨h.cont_eq, h.slots_eq, h.traps, h.continuations⟩

theorem Follows.operated (proc args : Value) : m.Follows enters (m.operated proc args) :=
  .control

theorem eval_pair_eq {i : PairId} (he : m.control.exp = .pair i) :
    eval m = (match m.image.store.car i with
      | .symbol x => do
        setVal (← lookup x)
        evalOperator
      | operator => evaluateFor .evalOperator operator)
      (m.operated m.control.val (m.image.store.cdr i)) := by
  rw [eval, get_bind_eq, he]
  simp only [query, Bind.bind, EStateM.bind]
  cases m.image.store.car i <;> rfl

theorem eval_eq {i : PairId} {x : Symbol} {proc : Value} (he : m.control.exp = .pair i)
    (hc : m.image.store.car i = .symbol x)
    (hl : m.image.store.lookup? m.control.env x = .ok (some proc)) :
    eval m = evalOperator (m.operated proc (m.image.store.cdr i)) := by
  have hl' : lookup x (m.operated m.control.val (m.image.store.cdr i)) = _ := lookup_of_found hl
  rw [eval_pair_eq he, hc]
  simp only [Bind.bind, EStateM.bind, hl']
  rfl

theorem beginOperands_outcome {k' : Step} {callee : Callee} {args : Value}
    (hm : At k' (.env e :: .step k :: σ) m) :
    Outcome enters (m.image.store.Circles m.control.env args) m (Goes false k σ)
      (beginOperands callee args m) := by
  have hm' := (hm.push (.callee callee) nofun).push .sentinel nofun
  exact .of_follows .control <| operands_outcome [] hm'

theorem evalOperand_outcome {k' : Step} {callee : Callee} {e' : FrameId} {rest : Value}
    (hm : At k' (.env e :: .value rest ::
      (values vs ++ .sentinel :: .callee callee :: .env e' :: .step k :: σ)) m) :
    Outcome enters (m.Circles .evalOperand) m (Goes false k σ) (evalOperand m) := by
  have ht := (TrapsFit.cons_iff.mp (TrapsFit.cons_iff.mp hm.traps).right).right
  have hm' := (hm.lowered e ht).push (.value m.control.val) nofun
  rw [evalOperand_eq hm.slots_eq]
  refine .of_follows .control <| (operands_outcome (m.control.val :: vs) hm').imp id ?_ ?_
  · exact .evalOperand hm.slots_eq
  · exact fun _ _ _ => id

theorem evalOperator_outcome {k' : Step} {args : Value}
    (hm : At k' (.value args :: .env e :: .step k :: σ) m) :
    Outcome enters (m.Circles .evalOperator) m (Goes false k σ) (evalOperator m) := by
  have hm' := hm.lowered e (TrapsFit.cons_iff.mp hm.traps).right
  rw [evalOperator_eq hm.slots_eq]
  refine .of_follows (.lowered e (.env e :: .step k :: σ)) ?_
  simp only [queryOrFail, Bind.bind, EStateM.bind]
  rw [show (m.lowered e (.env e :: .step k :: σ)).image.store = m.image.store from rfl]
  cases hs : isSpecial m.image.store m.control.val
  case error fault => exact ⟨.refl _, hm'.failed <| isSpecial_proper.admitted hs⟩
  case ok special =>
    cases special
    case true => exact restore_bind (applyTo_effect .apply) _ hm'
    case false =>
      exact (beginOperands_outcome hm').imp id (.evalOperator hm.slots_eq hs) fun _ _ _ => id

theorem eval_outcome (hm : At k σ m) :
    Outcome enters (m.Circles .eval) m (Goes false k σ) (eval m) := by
  cases he : m.control.exp
  case pair i =>
    by_cases hc : ∃ x proc, m.image.store.car i = .symbol x ∧
      m.image.store.lookup? m.control.env x = .ok (some proc)
    case pos =>
      obtain ⟨x, proc, hc, hl⟩ := hc
      have hm' := hm.operated proc (m.image.store.cdr i)
      rw [eval_eq he hc hl]
      refine .of_follows .control <| (evalOperator_outcome hm').imp id ?_ fun _ _ _ => id
      rintro (_ | ⟨hσ, hs, hc'⟩)
      cases hm'.slots_eq.symm.trans hσ
      exact .eval he hc hl hs hc'
    case neg =>
      have hm' := hm.operated m.control.val (m.image.store.cdr i)
      rw [eval_pair_eq he]
      refine .of_follows (.operated m.control.val (m.image.store.cdr i)) ?_
      cases hx : m.image.store.car i
      case symbol => exact lookup_bind_of_not_found hm' fun v hv => hc ⟨_, v, hx, hv⟩
      all_goals exact evaluateFor_effect (.evalFor rfl .evalOperator) _ hm'
  case symbol =>
    rw [eval, get_bind_eq, he]
    exact lookup_plain.effect_bind (fun _ => deliver_effect .deliver) m hm
  all_goals
    rw [eval, get_bind_eq, he]
    exact deliver_effect .deliver m hm

-- Special forms

theorem sequence_outcome (hm : At k σ m) :
    Outcome enters walks m (Goes (m.image.store.isLast m.control.argl) k σ) (sequence m) := by
  simp only [sequence, argl, query, Bind.bind, EStateM.bind, Store.isLast]
  generalize m.control.argl = body
  generalize m.image.store.uncons? body = parts
  refine Effect.outcome ?_ hm
  split
  case h_1 =>
    split
    case isTrue => exact deliver_effect .deliver
    case isFalse => exact .throw rfl
  case h_2 => exact evaluate_effect <| .eval rfl
  case h_3 =>
    exact save_bind fun _ => pushValue_bind <|
      evaluateFor_effect <| .evalFor (Value.isNil_eq_false ‹_›) .beginNext

theorem beginNext_outcome {k' : Step} {rest : Value}
    (hm : At k' (.value rest :: .env e :: .step k :: σ) m) :
    Outcome enters walks m (Goes (m.image.store.isLast rest) k σ) (beginNext m) := by
  rw [beginNext, onControl_bind_eq (Control.popValue_eq hm.slots_eq),
    onControl_bind_eq (Control.peekEnv_eq rfl)]
  simp only [setEnv, query, Bind.bind, EStateM.bind, Store.isLast]
  generalize m.image.store.uncons? rest = parts
  refine Effect.outcome ?_
    ⟨hm.cont_eq, rfl, by simpa [Stack.ofSlots] using hm.traps, hm.continuations⟩
  split
  case h_1 => exact restore_bind <| evaluate_effect <| .eval rfl
  case h_2 =>
    exact pushValue_bind <| evaluateFor_effect <| .evalFor (Value.isNil_eq_false ‹_›) .beginNext
  case h_3 => exact .throw rfl

theorem testFor_effect {test consequent alternate : Value} :
    Effect enters walks k σ (testFor test consequent alternate) (Goes false k σ) :=
  save_bind fun _ => push_bind nofun <| push_bind nofun <|
    evaluateFor_effect <| .evalFor rfl .ifBranch

theorem conditional_effect : Effect enters walks k σ conditional (Goes false k σ) := by
  refine argl_plain.effect_bind fun _ => query_plain.effect_bind fun operands => ?_
  split
  case h_1 => exact testFor_effect
  case h_2 => exact testFor_effect
  case h_3 => exact .throw rfl

theorem ifBranch_effect {k' : Step} {alternate consequent : Value} :
    Effect enters walks k' (.value alternate :: .value consequent :: .env e :: .step k :: σ)
      ifBranch (Goes true k σ) :=
  popValue_bind <| popValue_bind <| restore_bind <|
    val_keeps.effect_bind fun _ => evaluate_effect <| .eval rfl

theorem testClause_effect {k' : Step} {clauses : Value} :
    Effect enters walks k' (.env e :: .step k :: σ) (testClause clauses) (Goes false k σ) := by
  refine query_plain.effect_bind fun parts => ?_
  split
  case h_1 =>
    refine query_plain.effect_bind fun parts => ?_
    split
    case h_1 =>
      refine peekEnv_bind <| setEnv_keeps.effect_bind fun _ => push_bind nofun <| push_bind nofun ?_
      exact evaluateFor_effect <| .evalFor rfl .condNext
    case h_2 => exact write_plain.effect_bind fun _ => .throw rfl
  case h_2 =>
    split
    case isTrue => exact restore_bind <| deliver_effect .deliver
    case isFalse => exact .throw rfl

theorem cond_effect : Effect enters walks k σ cond (Goes false k σ) :=
  argl_plain.effect_bind fun _ => save_bind fun _ => testClause_effect

theorem condNext_outcome {k' : Step} {body rest : Value}
    (hm : At k' (.value body :: .value rest :: .env e :: .step k :: σ) m) :
    Outcome enters walks m (Goes (!m.control.val.isNil) k σ) (condNext m) := by
  rw [condNext, onControl_bind_eq (Control.popValue_eq hm.slots_eq),
    onControl_bind_eq (Control.popValue_eq rfl)]
  simp only [val, Bind.bind, EStateM.bind]
  generalize m.control.val = v
  refine Effect.outcome ?_
    ⟨hm.cont_eq, rfl, by simpa [Stack.ofSlots] using hm.traps, hm.continuations⟩
  cases hv : v.isNil
  case true => exact testClause_effect
  case false =>
    refine restore_bind <| query_plain.effect_bind fun parts => ?_
    split
    case h_1 =>
      split
      case isTrue => exact proceed_effect .deliver
      case isFalse => exact .throw rfl
    case h_2 => exact evaluate_effect <| .eval rfl
    case h_3 => exact cons_plain.effect_bind fun _ => evaluate_effect <| .eval rfl

-- A step that binds a name finds it on top of the stack.
theorem evaluateNamed_effect {cont : Step} {target body : Value}
    (h : ∀ x e, Awaits cont (.value (.symbol x) :: .env e :: .step k :: σ) k σ) :
    Effect enters walks k σ (evaluateNamed cont target body) (Goes false k σ) :=
  single_plain.effect_bind fun _ => symbolOperand_plain.effect_bind fun x => save_bind fun e =>
    push_bind nofun <| evaluateFor_effect <| .evalFor rfl <| h x e

theorem definition_effect {form : Builtin} {special : Bool} {cont : Step}
    (hc : ∀ x e, Awaits cont (.value (.symbol x) :: .env e :: .step k :: σ) k σ) :
    Effect enters walks k σ (definition form special cont) (Goes false k σ) := by
  refine argl_plain.effect_bind fun _ => atLeastTwo_plain.effect_bind fun (target, body) =>
    query_plain.effect_bind fun parts => ?_
  split
  case h_1 =>
    exact symbolOperand_plain.effect_bind fun _ => makeClosure_plain.effect_bind fun _ =>
      define_plain.effect_bind fun _ => deliver_effect .deliver
  case h_2 => exact evaluateNamed_effect hc

theorem assignment_effect : Effect enters walks k σ assignment (Goes false k σ) :=
  argl_plain.effect_bind fun _ => atLeastTwo_plain.effect_bind fun _ =>
    evaluateNamed_effect fun _ _ => .setBind

theorem popSymbol_bind {x : Symbol} {f : Symbol → Run β} {R : β → Step → List Slot → Prop}
    (hf : Effect enters walks k σ (f x) R) :
    Effect enters walks k (.value (.symbol x) :: σ) (popSymbol >>= f) R := by
  rw [popSymbol, bind_assoc]
  exact popValue_bind hf

theorem defineBind_effect {k' : Step} {x : Symbol} :
    Effect enters walks k' (.value (.symbol x) :: .env e :: .step k :: σ)
      defineBind (Goes hands k σ) :=
  popSymbol_bind <| restore_bind <| val_keeps.effect_bind fun _ =>
    define_plain.effect_bind fun _ => deliver_effect .deliver

theorem setBind_effect {k' : Step} {x : Symbol} :
    Effect enters walks k' (.value (.symbol x) :: .env e :: .step k :: σ) setBind
      (Goes hands k σ) :=
  popSymbol_bind <| restore_bind <| env_plain.effect_bind fun _ => val_keeps.effect_bind fun _ =>
    (image_plain Image.assign_obeys).effect_bind fun _ => deliver_effect .deliver

theorem specialBind_effect {k' : Step} {x : Symbol} :
    Effect enters walks k' (.value (.symbol x) :: .env e :: .step k :: σ)
      specialBind (Goes hands k σ) :=
  popSymbol_bind <| restore_bind <| val_keeps.effect_bind fun _ =>
    makeSpecial_plain.effect_bind fun _ => define_plain.effect_bind fun _ =>
    deliver_effect .deliver

theorem symbolOperand_bind {v : Value} {f : Symbol → Run β} {R : β → Step → List Slot → Prop}
    (hm : At k σ m) (hf : ∀ x, v = .symbol x → Outcome enters walks m R (f x m)) :
    Outcome enters walks m R ((symbolOperand v >>= f) m) := by
  cases v
  case symbol x => exact hf x rfl
  all_goals exact ⟨.refl m, hm.failed <| .plain rfl⟩

-- Whatever else is wrong with the form, it is only for its operands that it may have no end.
theorem foreignForm_outcome {b : BuiltinId} (hb : Builtin.ofId? b = some .ffi) (hm : At k σ m) :
    Outcome enters (m.Circles (.apply (.builtin b))) m (Goes false k σ) (foreignForm m) := by
  simp only [foreignForm, argl, atLeastTwo, query, Bind.bind, EStateM.bind]
  cases ha : m.control.argl
  case pair i =>
    simp only [Store.uncons?]
    cases hr : m.image.store.cdr i
    case pair j =>
      refine symbolOperand_bind hm fun group hg => symbolOperand_bind hm fun function hf => ?_
      rw [show (EStateM.bind get _ : Run Step) m = _ from get_bind_eq]
      cases hn : Group.id? (m.image.symbols.name group)
      case none => exact Effect.throw rfl m hm
      case some g =>
        have hm' := hm.saved
        refine .of_follows .control <| (beginOperands_outcome hm').imp id ?_ fun _ _ _ => id
        exact .foreign hb ha hg hr hf hn
    all_goals exact Effect.throw rfl m hm
  all_goals exact Effect.throw rfl m hm

end Machine
end StepLisp
