import StepLisp.Proofs.Detached.Basic
import StepLisp.Proofs.Store.Sound

namespace StepLisp

open Act

namespace Machine

variable {v : Value} {walks sees : Prop}

-- Closures

theorem checkParamsFrom_plain {fuel : Nat} {params : Value} :
    Plain walks sees (checkParamsFrom fuel params) := by
  fun_induction checkParamsFrom fuel params
  case case1 => exact .pure
  case case2 => exact .pure
  case case3 hi =>
    refine query_plain.bind fun param => ?_
    split
    case h_1 => exact query_plain.bind fun _ => hi _
    case h_2 => exact write_plain.bind fun _ => malformed_plain
  case case4 => exact write_plain.bind fun _ => malformed_plain

theorem makeClosure_plain {params body : Value} {special : Bool} :
    Plain walks sees (makeClosure params body special) := by
  refine (query_plain.bind fun _ => checkParamsFrom_plain).bind fun _ =>
    query_plain.bind fun parts => ?_
  have close {body : Value} : Plain walks sees (do
      liftM (Store.allocClosure { params, body, env := ← env, special }) : Run Value) :=
    env_plain.bind fun _ => store_plain Store.allocClosure_obeys
  split
  case h_1 => exact close
  case h_2 => exact cons_plain.bind fun _ => close
  case h_3 => exact malformed_plain.bind fun _ => close

theorem storeDefine_plain {frame : FrameId} {x : Symbol} :
    Plain walks sees (liftM (Store.define frame x v) : Run Unit) :=
  store_plain Store.define_obeys

-- Parameters and arguments may both run in a cycle.
theorem bindParamsFrom_plain {frame : FrameId} {fuel : Nat} {params args : Value} :
    Plain True sees (bindParamsFrom frame fuel params args) := by
  fun_induction bindParamsFrom frame fuel params args
  case case1 => exact .pure
  case case2 => exact write_plain.bind fun _ => malformed_plain
  case case3 => exact storeDefine_plain
  case case4 => exact .endless
  case case5 hi =>
    refine query_plain.bind fun param => query_plain.bind fun more => ?_
    split
    case h_1 =>
      refine .ite (query_plain.bind fun parts => ?_) (query_plain.bind fun parts => ?_)
      · split
        case h_1 => exact storeDefine_plain
        case h_2 => exact malformed_plain
      · split
        case h_1 => exact storeDefine_plain.bind fun _ => hi _ _
        case h_2 => exact malformed_plain
    case h_2 => exact malformed_plain
  case case6 => exact malformed_plain

theorem bindParams_plain {frame : FrameId} {params args : Value} :
    Plain True sees (bindParams frame params args) :=
  query_plain.bind fun _ => bindParamsFrom_plain

-- Procedures that take their operands unevaluated

-- A continuation that takes its operand unevaluated goes back to where it did before.
theorem markContinuation_spares {id : ContinuationId} :
    Spares Image.snapshots (Image.onStore (Store.markContinuation id)) := by
  intro image
  simp only [Image.onStore, Store.markContinuation]
  cases hc : image.store.continuation id
  case error fault => exact ⟨rfl, ((.present : Proper False _) fault hc).isStack_eq⟩
  case ok =>
    funext i
    simp only [Image.snapshots, Slab.snapshots, Slab.get?_modify]
    split
    case isTrue => cases image.store.continuations.get? i <;> rfl
    case isFalse => rfl

theorem markContinuation_plain {id : ContinuationId} :
    Plain walks sees (liftM (Store.markContinuation id) : Run Unit) where
  toDetached := onImage_detached markContinuation_spares
  obeys m := by
    rw [show (liftM (Store.markContinuation id) : Run Unit) =
      onImage (Image.onStore (Store.markContinuation id)) from rfl]
    simp only [onImage, Image.onStore, Store.markContinuation]
    cases hc : m.image.store.continuation id
    case error fault => exact ⟨.refl m, Proper.present.admitted hc⟩
    case ok => exact ⟨rfl, rfl, rfl, .of_cells rfl rfl rfl rfl (Nat.le_refl _), .refl _, .inr rfl⟩

theorem rawOperands_plain {proc : Value} : Plain walks sees (rawOperands proc) := by
  unfold rawOperands
  split
  case h_1 => exact .throw rfl
  case h_2 =>
    exact (image_plain Image.intern_obeys).bind fun _ =>
      (store_plain Store.list_obeys).bind fun _ => env_plain.bind fun _ =>
      store_plain Store.allocClosure_obeys

theorem makeSpecial_plain {v : Value} : Plain walks sees (makeSpecial v) := by
  unfold makeSpecial
  split
  case h_1 => exact (store_plain Store.markClosure_obeys).bind fun _ => .pure
  case h_2 => exact markContinuation_plain.bind fun _ => .pure
  case h_3 =>
    refine (queryOrFail_plain fun _ => isSpecial_proper).bind fun special => ?_
    cases special
    case true => exact .pure
    case false => exact rawOperands_plain
  case h_4 => exact write_plain.bind fun _ => malformed_plain

-- Continuations

theorem resumeArgument_plain : Plain walks True resumeArgument := by
  refine argl_plain.bind fun _ => query_plain.bind fun parts => ?_
  split
  case h_1 => exact .pure
  case h_2 => exact .pure
  case h_3 => exact malformed_plain

end Machine
end StepLisp
