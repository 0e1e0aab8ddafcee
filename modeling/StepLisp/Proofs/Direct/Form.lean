import StepLisp.Proofs.Detached.Deliver
import StepLisp.Proofs.Direct.Simulation

namespace StepLisp.Machine

open Direct (within native)

variable {k k₀ : Step} {σ : List Slot} {w : World} {e e' : FrameId} {u v a : Value} {fuel : Nat}
variable {ev : FrameId → Value → Direct Value} {ap : FrameId → Value → Value → Direct Value}

-- What is done with a name on the stack and the value of an expression.
def bindNamed (bind : Symbol → Value → Run Unit) : Run Step := do
  let x ← popSymbol
  Control.restore
  bind x (← val)
  deliver .nil

theorem step_specialBind :
    step .specialBind = bindNamed (fun x v => do define x (← makeSpecial v)) := by
  simp only [step, specialBind, bindNamed, bind_assoc]

section

variable (hev : Evaluates ev)
include hev

-- begin

theorem beginNext_simulates {rest : Value} (hr : rest.isNil = false) :
    Simulates beginNext w ⟨e', k₀, u, a, .value rest :: .env e :: .step k :: σ⟩ k σ
      (Direct.sequence ev fuel e rest) := by
  induction fuel generalizing w e' k₀ u a rest
  case zero => exact .unfinished
  case succ hf =>
    refine .popValue_bind <| .peekEnv_bind <| .setEnv_bind <| .query_bind ?_
    generalize w.image.store.uncons? rest = parts
    rcases parts with _ | ⟨first, more⟩
    case none =>
      simp only [hr]
      exact .fail
    case some =>
      cases more
      case nil => exact .restore_bind <| .evaluate hev
      all_goals exact .push_bind nofun <| .evaluateFor hev nofun fun _ _ _ _ => hf rfl

theorem sequence_simulates : Simulates sequence w ⟨e, k, u, a, σ⟩ k σ
    (Direct.sequence ev fuel e a) := by
  cases fuel
  case zero => exact .unfinished
  case succ =>
    refine .argl_bind <| .query_bind ?_
    generalize w.image.store.uncons? a = parts
    rcases parts with _ | ⟨first, more⟩
    case none =>
      dsimp only
      split
      case isTrue => exact .deliver
      case isFalse => exact .fail
    case some =>
      cases more
      case nil => exact .evaluate hev
      all_goals
        exact .save_bind <| .push_bind nofun <| .evaluateFor hev nofun fun _ _ _ _ =>
          beginNext_simulates hev rfl

-- if and cond

theorem testFor_simulates {test consequent alternate : Value} :
    Simulates (testFor test consequent alternate) w ⟨e, k, u, a, σ⟩ k σ
      (Direct.branch ev e test consequent alternate) := by
  refine .save_bind <|
    .push_bind nofun <| .push_bind nofun <| .evaluateFor hev nofun fun _ _ _ _ => ?_
  exact .popValue_bind <| .popValue_bind <| .restore_bind <| .val_bind <| .evaluate hev

theorem conditional_simulates : Simulates conditional w ⟨e, k, u, a, σ⟩ k σ
    (Direct.conditional ev e a) := by
  refine .argl_bind <| .query_bind ?_
  generalize w.image.store.toList? a = parts
  rcases parts with _ | _ | ⟨test, _ | ⟨consequent, _ | ⟨alternate, _ | _⟩⟩⟩
  case some.cons.cons.nil => exact testFor_simulates hev
  case some.cons.cons.cons.nil => exact testFor_simulates hev
  all_goals exact .fail

-- The rest of a clause after its test has not failed.
theorem clauseBody_simulates {body : Value} :
    Simulates (do
      match ← query (·.uncons? body) with
      | none => if body.isNil then proceed else malformed .condBody
      | some (only, .nil) => evaluate only
      | some _ => evaluate (← Store.cons (.symbol .beginForm) body)) w ⟨e, k, v, a, σ⟩ k σ
      (Direct.clauseBody ev e v body) := by
  refine .query_bind ?_
  generalize w.image.store.uncons? body = parts
  rcases parts with _ | ⟨first, more⟩
  case none =>
    dsimp only
    split
    case isTrue => exact .proceed
    case isFalse => exact .fail
  case some =>
    cases more
    case nil => exact .evaluate hev
    all_goals exact .within_bind cons_plain fun _ _ => .evaluate hev

theorem testClause_simulates {clauses : Value} :
    Simulates (testClause clauses) w ⟨e', k₀, u, a, .env e :: .step k :: σ⟩ k σ
      (Direct.clauses ev fuel e clauses) := by
  induction fuel generalizing w e' k₀ u a clauses
  case zero => exact .unfinished
  case succ hf =>
    refine .query_bind ?_
    generalize w.image.store.uncons? clauses = parts
    rcases parts with _ | ⟨clause, rest⟩
    case none =>
      dsimp only
      split
      case isTrue => exact .restore_bind .deliver
      case isFalse => exact .fail
    case some =>
      refine .query_bind ?_
      generalize w.image.store.uncons? clause = parts
      rcases parts with _ | ⟨test, body⟩
      case none => exact .fail_of_text
      case some =>
        refine .peekEnv_bind <| .setEnv_bind <| .push_bind nofun <| .push_bind nofun <|
          .evaluateFor hev nofun fun v _ _ _ => ?_
        refine .popValue_bind <| .popValue_bind <| .val_bind ?_
        dsimp only
        split
        case isTrue => exact hf
        case isFalse => exact .restore_bind <| clauseBody_simulates hev

theorem cond_simulates : Simulates cond w ⟨e, k, u, a, σ⟩ k σ (Direct.clauses ev fuel e a) :=
  .argl_bind <| .save_bind <| testClause_simulates hev

-- define, set! and special

theorem evaluateNamed_simulates {k' : Step} {bind : Symbol → Value → Run Unit}
    {target body : Value} (hk : k' ≠ .halt) (hb : ∀ x v, Plain True False (bind x v))
    (hs : step k' = bindNamed bind) :
    Simulates (evaluateNamed k' target body) w ⟨e, k, u, a, σ⟩ k σ
      (Direct.named ev bind e target body) := by
  refine .within_bind single_plain fun _ _ =>
    .within_bind symbolOperand_plain fun x _ => .save_bind <| .push_bind nofun <|
      .evaluateFor hev hk fun v _ _ _ => ?_
  rw [hs, bindNamed, popSymbol, bind_assoc]
  exact .popValue_bind <| .restore_bind <| .val_bind <| .within_bind (hb x v) fun _ _ =>
    .deliver

theorem definition_simulates {form : Builtin} {special : Bool} {k' : Step}
    {bind : Symbol → Value → Run Unit} (hk : k' ≠ .halt) (hb : ∀ x v, Plain True False (bind x v))
    (hs : step k' = bindNamed bind) :
    Simulates (definition form special k') w ⟨e, k, u, a, σ⟩ k σ
      (Direct.definition ev form special bind e a) := by
  refine .argl_bind <| .within_bind atLeastTwo_plain fun (target, body) w => ?_
  refine .query_bind ?_
  generalize w.image.store.uncons? target = parts
  rcases parts with _ | ⟨name, params⟩
  case none => exact evaluateNamed_simulates hev hk hb hs
  case some =>
    exact .within_bind symbolOperand_plain fun x _ =>
      .within_bind makeClosure_plain fun proc _ =>
        .within_bind define_plain fun _ _ => .deliver

theorem assignment_simulates : Simulates assignment w ⟨e, k, u, a, σ⟩ k σ
    (Direct.assignment ev e a) :=
  .argl_bind <| .within_bind atLeastTwo_plain fun (_, _) _ =>
    evaluateNamed_simulates hev nofun
      (fun _ _ => env_plain.bind fun _ => image_plain Image.assign_obeys) rfl

-- Evaluation of values

theorem evaluateUp_simulates {n : Nat} : Simulates (evaluateUp v n) w ⟨e, k, u, a, σ⟩ k σ
    (Direct.evaluateUp ev e v n) :=
  .within_bind expression_plain fun _ _ => .env_bind <|
    .within_bind (queryOrFail_plain fun _ => Store.ancestor_proper) fun _ _ =>
      .setEnv_bind <| .evaluate hev

theorem evalValue_simulates : Simulates evalValue w ⟨e, k, u, a, σ⟩ k σ
    (Direct.evalValue ev e a) := by
  refine .native_bind looseArguments_plain (fun _ => rfl) fun vs _ => ?_
  rcases vs with _ | ⟨v, _ | ⟨n, _ | _⟩⟩
  case nil => exact .fail
  case cons.nil => exact evaluateUp_simulates hev
  case cons.cons.nil =>
    cases n
    case int =>
      dsimp only
      split
      case isTrue => exact evaluateUp_simulates hev
      case isFalse => exact .fail_of_text
    all_goals exact .fail_of_text
  case cons.cons.cons => cases n <;> exact .fail

theorem closure_simulates {id : ClosureId} : Simulates (applyClosure id) w ⟨e, k, u, a, σ⟩ k σ
    (Direct.closure ev e id a) :=
  .within_bind (queryOrFail_plain fun _ => .present) fun _ _ => .env_bind <|
    .detached_bind allocFrame_detached False.elim fun _ _ => .argl_bind <|
      .within_bind bindParams_plain fun _ _ => .setEnv_bind <| .evaluate hev

end

-- Application

theorem apply_simulates (hap : Applies ap) : Simulates apply w ⟨e, k, u, a, σ⟩ k σ
    (Direct.applyList ap e a) := by
  refine .native_bind twoArguments_plain (fun _ => rfl) fun (proc, list) _ => ?_
  dsimp only
  split
  case isTrue => exact .fail_of_text
  case isFalse =>
    split
    case isTrue => exact .fail_of_text
    case isFalse => exact .applyTo hap

-- What a native builtin hands to the continuation.
theorem native_of_delivers {x : Run Value} :
    native e a (do let _ ← x >>= deliver; val) = native e a x := by
  funext w
  simp only [native, Bind.bind, EStateM.bind]
  cases x (w.machine { env := e, argl := a } 0) <;> rfl

theorem native_simulates {b : Builtin} (h : b.isNative) : Simulates b.run w ⟨e, k, u, a, σ⟩ k σ
    (native e a do let _ ← b.run; val) := by
  have ⟨x, hx, he⟩ := run_delivers h
  rw [he, native_of_delivers, ← bind_pure (native e a x)]
  exact .detached_bind hx.toDetached (fun _ => rfl) fun _ _ => .deliver

theorem run_simulates (hev : Evaluates ev) (hap : Applies ap) {b : Builtin} :
    Simulates b.run w ⟨e, k, u, a, σ⟩ k σ (Direct.builtin ev ap fuel e a b) := by
  cases b
  case «begin» | «do» => exact sequence_simulates hev
  case «if» => exact conditional_simulates hev
  case cond => exact cond_simulates hev
  case define => exact definition_simulates hev nofun (fun _ _ => define_plain) rfl
  case special =>
    exact definition_simulates hev nofun
      (fun _ _ => makeSpecial_plain.bind fun _ => define_plain) step_specialBind
  case set => exact assignment_simulates hev
  case apply => exact apply_simulates hap
  case eval => exact evalValue_simulates hev
  case quasiquote | trap | ffi | callcc | callWithCurrentContinuation => exact .beyond
  all_goals exact native_simulates rfl

end StepLisp.Machine
