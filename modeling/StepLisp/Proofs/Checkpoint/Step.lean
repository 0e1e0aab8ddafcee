import StepLisp.Proofs.Checkpoint.Guards
import StepLisp.Proofs.Stack.Discipline

namespace StepLisp

open Act

def Builtin.isCapture : Builtin → Bool
  | callcc | callWithCurrentContinuation => true
  | _ => false

-- The builtin that a step applies.
def Step.builtin? : Step → Option Builtin
  | .apply (.builtin id) => Builtin.ofId? id
  | _ => none

-- The steps that set something up to go back to, or that go back.
inductive Step.Marks : Step → Prop
  | trapDone : Marks .trapDone
  | resume {id} : Marks (.apply (.continuation id))
  | trap {k : Step} : k.builtin? = some .trap → Marks k
  | capture {k : Step} {b : Builtin} : k.builtin? = some b → b.isCapture → Marks k

namespace Machine

variable {v : Value}

-- Operands

theorem gather_guards {unexpected : Slot → Internal} (hu : ∀ slot, (unexpected slot).isStack)
    {fuel : Nat} {list : Value} : Guards (gather unexpected fuel list) := by
  induction fuel generalizing list
  case zero => exact .throw
  case succ hi =>
    refine pop_guards (fun slot _ => ?_) fun c _ => ⟨_, _, rfl, hu (.trap c)⟩
    cases slot
    case value => exact cons_plain.guards_bind fun _ => hi
    case sentinel => exact .pure
    all_goals exact .throw

theorem depth_guards : Guards depth :=
  fun _ => rfl

theorem finishOperands_guards : Guards finishOperands := by
  refine depth_guards.bind fun _ => (gather_guards fun _ => rfl).bind fun _ => ?_
  refine popCallee_guards.bind fun callee => restore_guards.bind fun _ => ?_
  refine setArgl_guards.bind fun _ => ?_
  cases callee
  case proc => exact .pure
  case foreign => exact callForeign_plain.guards_bind fun _ => deliver_guards

theorem operandsFrom_guards {fuel : Nat} {args : Value} : Guards (operandsFrom fuel args) := by
  fun_induction operandsFrom fuel args
  case case1 => exact finishOperands_guards
  case case2 => exact .throw
  case case3 hi =>
    refine query_plain.guards_bind fun arg => query_plain.guards_bind fun rest => ?_
    split
    case h_1 =>
      exact pushValue_guards.bind fun _ => env_plain.guards_bind fun _ =>
        pushEnv_guards.bind fun _ => evaluateFor_guards
    case h_2 => exact lookup_plain.guards_bind fun _ => pushValue_guards.bind fun _ => hi rest
    case h_3 => exact pushValue_guards.bind fun _ => hi rest
  case case4 => exact .throw

theorem operands_guards {args : Value} : Guards (operands args) :=
  query_plain.guards_bind fun _ => operandsFrom_guards

theorem beginOperands_guards {callee : Callee} {args : Value} :
    Guards (beginOperands callee args) :=
  Guards.bind (push_guards nofun) fun _ => Guards.bind (push_guards nofun) fun _ => operands_guards

theorem evalOperand_guards : Guards evalOperand :=
  popEnv_guards.bind fun _ => setEnv_guards.bind fun _ => popValue_guards.bind fun _ =>
    val_guards.bind fun _ => pushValue_guards.bind fun _ => operands_guards

theorem evalOperator_guards : Guards evalOperator := by
  refine val_guards.bind fun proc => popValue_guards.bind fun _ => peekEnv_guards.bind fun _ =>
    setEnv_guards.bind fun _ => ?_
  refine (queryOrFail_plain fun _ => isSpecial_proper).guards_bind fun special => ?_
  cases special
  case true => exact restore_guards.bind fun _ => applyTo_guards
  case false => exact beginOperands_guards

theorem eval_guards : Guards eval := by
  refine get_guards.bind fun m => ?_
  split
  case h_1 => exact lookup_plain.guards_bind fun _ => deliver_guards
  case h_2 =>
    refine query_plain.guards_bind fun operator => query_plain.guards_bind fun _ =>
      save_guards.bind fun _ => pushValue_guards.bind fun _ => ?_
    split
    case h_1 =>
      exact lookup_plain.guards_bind fun _ => setVal_guards.bind fun _ => evalOperator_guards
    case h_2 => exact evaluateFor_guards
  case h_3 => exact deliver_guards

-- Special forms

theorem sequence_guards : Guards sequence := by
  refine argl_plain.guards_bind fun body => query_plain.guards_bind fun parts => ?_
  split
  case h_1 =>
    split
    case isTrue => exact deliver_guards
    case isFalse => exact .throw
  case h_2 => exact evaluate_guards
  case h_3 =>
    exact save_guards.bind fun _ => pushValue_guards.bind fun _ => evaluateFor_guards

theorem beginNext_guards : Guards beginNext := by
  refine popValue_guards.bind fun _ => peekEnv_guards.bind fun _ => setEnv_guards.bind fun _ =>
    query_plain.guards_bind fun parts => ?_
  split
  case h_1 => exact restore_guards.bind fun _ => evaluate_guards
  case h_2 => exact pushValue_guards.bind fun _ => evaluateFor_guards
  case h_3 => exact .throw

theorem testFor_guards {test consequent alternate : Value} :
    Guards (testFor test consequent alternate) :=
  save_guards.bind fun _ => pushValue_guards.bind fun _ => pushValue_guards.bind fun _ =>
    evaluateFor_guards

theorem conditional_guards : Guards conditional := by
  refine argl_plain.guards_bind fun _ => query_plain.guards_bind fun operands => ?_
  split
  case h_1 => exact testFor_guards
  case h_2 => exact testFor_guards
  case h_3 => exact .throw

theorem ifBranch_guards : Guards ifBranch :=
  popValue_guards.bind fun _ => popValue_guards.bind fun _ => restore_guards.bind fun _ =>
    val_guards.bind fun _ => evaluate_guards

theorem testClause_guards {clauses : Value} : Guards (testClause clauses) := by
  refine query_plain.guards_bind fun parts => ?_
  split
  case h_1 =>
    refine query_plain.guards_bind fun parts => ?_
    split
    case h_1 =>
      exact peekEnv_guards.bind fun _ => setEnv_guards.bind fun _ =>
        pushValue_guards.bind fun _ => pushValue_guards.bind fun _ => evaluateFor_guards
    case h_2 => exact write_plain.guards_bind fun _ => .throw
  case h_2 =>
    split
    case isTrue => exact restore_guards.bind fun _ => deliver_guards
    case isFalse => exact .throw

theorem cond_guards : Guards cond :=
  argl_plain.guards_bind fun _ => save_guards.bind fun _ => testClause_guards

theorem condNext_guards : Guards condNext := by
  refine popValue_guards.bind fun body => popValue_guards.bind fun _ => val_guards.bind fun v => ?_
  split
  case isTrue => exact testClause_guards
  case isFalse =>
    refine restore_guards.bind fun _ => query_plain.guards_bind fun parts => ?_
    split
    case h_1 =>
      split
      case isTrue => exact proceed_guards
      case isFalse => exact .throw
    case h_2 => exact evaluate_guards
    case h_3 => exact cons_plain.guards_bind fun _ => evaluate_guards

theorem evaluateNamed_guards {k : Step} {target body : Value} :
    Guards (evaluateNamed k target body) :=
  single_plain.guards_bind fun _ => symbolOperand_plain.guards_bind fun _ =>
    save_guards.bind fun _ => pushValue_guards.bind fun _ => evaluateFor_guards

theorem definition_guards {form : Builtin} {special : Bool} {k : Step} :
    Guards (definition form special k) := by
  refine argl_plain.guards_bind fun _ => atLeastTwo_plain.guards_bind fun (target, body) =>
    query_plain.guards_bind fun parts => ?_
  split
  case h_1 =>
    exact symbolOperand_plain.guards_bind fun _ => makeClosure_plain.guards_bind fun _ =>
      define_plain.guards_bind fun _ => deliver_guards
  case h_2 => exact evaluateNamed_guards

theorem assignment_guards : Guards assignment :=
  argl_plain.guards_bind fun _ => atLeastTwo_plain.guards_bind fun _ => evaluateNamed_guards

theorem popSymbol_guards : Guards popSymbol := by
  refine popValue_guards.bind fun v => ?_
  split
  case h_1 => exact .pure
  case h_2 => exact .throw

theorem defineBind_guards : Guards defineBind :=
  popSymbol_guards.bind fun _ => restore_guards.bind fun _ => val_guards.bind fun _ =>
    define_plain.guards_bind fun _ => deliver_guards

theorem setBind_guards : Guards setBind :=
  popSymbol_guards.bind fun _ => restore_guards.bind fun _ => env_plain.guards_bind fun _ =>
    val_guards.bind fun _ => (image_plain Image.assign_obeys).guards_bind fun _ =>
      deliver_guards

theorem specialBind_guards : Guards specialBind :=
  popSymbol_guards.bind fun _ => restore_guards.bind fun _ => val_guards.bind fun _ =>
    makeSpecial_plain.guards_bind fun _ => define_plain.guards_bind fun _ => deliver_guards

theorem foreignForm_guards : Guards foreignForm := by
  refine argl_plain.guards_bind fun _ => atLeastTwo_plain.guards_bind fun (group, rest) =>
    query_plain.guards_bind fun parts => ?_
  split
  case h_1 => exact .throw
  case h_2 =>
    refine symbolOperand_plain.guards_bind fun _ => symbolOperand_plain.guards_bind fun _ =>
      get_guards.bind fun m => ?_
    simp only
    split
    case h_1 => exact .throw
    case h_2 => exact save_guards.bind fun _ => beginOperands_guards

-- Templates

theorem quasiquote_guards : Guards quasiquote :=
  argl_plain.guards_bind fun _ => single_plain.guards_bind fun _ _ => rfl

theorem expandFor_guards {k : Step} {exp : Value} : Guards (expandFor k exp) :=
  fun _ => rfl

theorem templateElement_guards {form : Value} : Guards (templateElement form) := by
  refine query_plain.guards_bind fun parts => ?_
  split
  case h_1 => exact .throw
  case h_2 =>
    split
    case isTrue =>
      refine pushValue_guards.bind fun _ => save_guards.bind fun _ =>
        query_plain.guards_bind fun parts => ?_
      split
      case h_1 =>
        split
        case isTrue => exact single_plain.guards_bind fun _ => evaluateFor_guards
        case isFalse => exact expandFor_guards
      case h_2 => exact expandFor_guards
    case isFalse => exact write_plain.guards_bind fun _ => .throw

theorem expandList_guards {form : Value} : Guards (expandList form) :=
  save_guards.bind fun _ => Guards.bind (push_guards nofun) fun _ => templateElement_guards

theorem expand_guards : Guards expand := by
  refine get_guards.bind fun m => query_plain.guards_bind fun parts => ?_
  split
  case h_1 => exact deliver_guards
  case h_2 =>
    split
    case isTrue =>
      exact save_guards.bind fun _ => single_plain.guards_bind fun _ => expandFor_guards
    case isFalse =>
      split
      case isTrue => exact single_plain.guards_bind fun _ => evaluate_guards
      case isFalse =>
        split
        case isTrue => exact (single_plain.bind fun _ => .pure).guards_bind fun _ => .throw
        case isFalse => exact expandList_guards
  case h_3 => exact expandList_guards

theorem rewrap_guards : Guards rewrap :=
  restore_guards.bind fun _ => val_guards.bind fun _ => cons_plain.guards_bind fun _ =>
    cons_plain.guards_bind fun _ => deliver_guards

theorem templateRest_guards {rest : Value} : Guards (templateRest rest) := by
  unfold templateRest
  split
  case isTrue => exact .pure
  case isFalse => exact templateElement_guards

theorem templateNext_guards : Guards templateNext :=
  restore_guards.bind fun _ => popValue_guards.bind fun _ => val_guards.bind fun _ =>
    pushValue_guards.bind fun _ => templateRest_guards

theorem pushAll_guards {items : List Value} : Guards (forIn items PUnit.unit fun item _ => do
    liftM (Control.push (.value item)); Pure.pure (.yield PUnit.unit) : Run PUnit) := by
  induction items
  case nil => exact .pure
  case cons hi =>
    rw [List.forIn_cons]
    refine (pushValue_guards.bind fun _ => .pure).bind fun r => ?_
    cases r
    case done => exact .pure
    case yield => exact hi

theorem templateSpliced_guards : Guards templateSpliced := by
  refine restore_guards.bind fun _ => popValue_guards.bind fun _ => val_guards.bind fun _ =>
    query_plain.guards_bind fun items => ?_
  split
  case h_1 => exact write_plain.guards_bind fun _ => .throw
  case h_2 => exact pushAll_guards.bind fun _ => templateRest_guards

theorem templateFinish_guards : Guards templateFinish :=
  depth_guards.bind fun _ => (gather_guards fun _ => rfl).bind fun _ =>
    restore_guards.bind fun _ => deliver_guards

-- Application

theorem Delivers.guards {walks : Prop} {y : Run Step} (h : Delivers walks y) : Guards y := by
  have ⟨x, hx, he⟩ := h
  exact he ▸ hx.guards.bind fun _ => deliver_guards

theorem apply_guards : Guards apply := by
  refine twoArguments_plain.guards_bind fun (proc, list) => ?_
  simp only
  split
  case isTrue => exact write_plain.guards_bind fun _ => .throw
  case isFalse =>
    split
    case isTrue => exact write_plain.guards_bind fun _ => .throw
    case isFalse => exact applyTo_guards

theorem evaluateUp_guards {n : Nat} : Guards (evaluateUp v n) :=
  expression_plain.guards_bind fun _ => env_plain.guards_bind fun _ =>
    (queryOrFail_plain fun _ => Store.ancestor_proper).guards_bind fun _ =>
      setEnv_guards.bind fun _ => evaluate_guards

theorem evalValue_guards : Guards evalValue := by
  refine looseArguments_plain.guards_bind fun vs => ?_
  split
  case h_1 => exact evaluateUp_guards
  case h_2 =>
    split
    case isTrue => exact evaluateUp_guards
    case isFalse => exact write_plain.guards_bind fun _ => .throw
  case h_3 => exact write_plain.guards_bind fun _ => .throw
  case h_4 => exact .throw

theorem run_guards {b : Builtin} (ht : b ≠ .trap) (hc : b.isCapture = false) : Guards b.run := by
  cases b
  case trap => contradiction
  case callcc | callWithCurrentContinuation => cases hc
  case «begin» | «do» => exact sequence_guards
  case «if» => exact conditional_guards
  case cond => exact cond_guards
  case define | special => exact definition_guards
  case set => exact assignment_guards
  case quasiquote => exact quasiquote_guards
  case ffi => exact foreignForm_guards
  case apply => exact apply_guards
  case eval => exact evalValue_guards
  all_goals exact (run_delivers rfl).guards

theorem applyClosure_guards {id : ClosureId} : Guards (applyClosure id) :=
  (queryOrFail_plain fun _ => .present).guards_bind fun _ => env_plain.guards_bind fun _ =>
    allocFrame_detached.guards.bind fun _ => argl_plain.guards_bind fun _ =>
      bindParams_plain.guards_bind fun _ => setEnv_guards.bind fun _ => evaluate_guards

theorem applyProc_guards (h : ¬(Step.apply v).Marks) : Guards (applyProc v) := by
  unfold applyProc
  split
  case h_1 =>
    split
    case h_1 b hb =>
      refine run_guards (fun ht => h <| .trap <| ht ▸ hb) <| Bool.eq_false_iff.mpr fun hc => ?_
      exact h <| .capture hb hc
    case h_2 => exact .throw
  case h_2 => exact applyClosure_guards
  case h_3 => exact absurd .resume h
  case h_4 => exact write_plain.guards_bind fun _ => .throw

theorem step_guards {next : Step} (h : ¬next.Marks) : Guards (step next) := by
  cases next
  case halt => exact .pure
  case eval => exact eval_guards
  case apply => exact applyProc_guards h
  case evalOperator => exact evalOperator_guards
  case evalOperand => exact evalOperand_guards
  case beginNext => exact beginNext_guards
  case ifBranch => exact ifBranch_guards
  case condNext => exact condNext_guards
  case defineBind => exact defineBind_guards
  case setBind => exact setBind_guards
  case specialBind => exact specialBind_guards
  case quasi => exact expand_guards
  case quasiRewrap => exact rewrap_guards
  case quasiNext => exact templateNext_guards
  case quasiSpliced => exact templateSpliced_guards
  case quasiFinish => exact templateFinish_guards
  case trapDone => exact absurd .trapDone h

end Machine
end StepLisp
