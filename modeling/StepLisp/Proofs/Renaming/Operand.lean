import StepLisp.Proofs.Renaming.Foreign
import StepLisp.Proofs.Sequence

namespace StepLisp.Machine

open Act

variable {exact : Prop} {ρ : Renaming} {v v' w w' : Value} {k k' : Step} {m m' : Machine}

-- Results

theorem gather_respects {unexpected : Slot → Internal} {fuel : Nat}
    (hu : ∀ slot, (unexpected slot).isStack) (hv : v.Alike ρ v') :
    Respects (likeness exact) ρ (gather unexpected fuel v) (gather unexpected fuel v')
      Value.Alike := by
  induction fuel generalizing ρ v v'
  case zero => exact .throw rfl
  case succ hf =>
    refine (onControl_steady Control.pop_steady).bind fun slot slot' hs => ?_
    cases hs
    case value hw =>
      exact (onStore_respects <| Store.cons_respects hw hv).bind fun _ _ _ _ hv => hf hv
    case sentinel => exact .pure hv
    all_goals exact .fail <| .stack (hu _) (hu _)

theorem depth_steady : Steady (likeness exact) ρ depth depth Eq :=
  fun _ _ hm => .ok (le_refl ρ) hm ⟨rfl, hm.control.depth_eq⟩

theorem finishOperands_respects :
    Respects (likeness exact) ρ finishOperands finishOperands Step.Alike := by
  refine depth_steady.bind fun n _ hn => ?_
  cases hn
  refine (gather_respects (fun _ => rfl) .nil).bind fun τ args args' _ ha => ?_
  refine (onControl_steady Control.popCallee_steady).bind fun c c' hc => ?_
  refine restore_steady.bind fun _ _ _ => ?_
  refine (setArgl_steady ha).bind fun _ _ _ => ?_
  cases hc
  case proc hp => exact .pure <| .apply hp
  case foreign =>
    exact (callForeign_respects ha).bind fun _ _ _ _ hv => deliver_respects hv

-- Operands one after the other

theorem operandsFrom_respects {fuel : Nat} (hv : v.Alike ρ v') :
    Respects (likeness exact) ρ (operandsFrom fuel v) (operandsFrom fuel v') Step.Alike := by
  induction fuel generalizing v v' <;> cases hv
  case zero.nil | succ.nil => exact finishOperands_respects
  case succ.pair fuel hf i i' hi =>
    refine (query_steady fun _ _ h => h.car hi).bind fun arg arg' ha => ?_
    refine (query_steady fun _ _ h => h.cdr hi).bind fun rest rest' hr => ?_
    have push {v v'} (hv : v.Alike ρ v') : Respects (likeness exact) ρ
        (do liftM (Control.push (.value v)); operandsFrom fuel rest)
        (do liftM (Control.push (.value v')); operandsFrom fuel rest') Step.Alike :=
      (push_steady <| .value hv).bind fun _ _ _ => hf hr
    have ha' := ha
    cases ha
    case pair =>
      exact (push_steady <| .value hr).bind fun _ _ _ => env_steady.bind fun _ _ he =>
        (push_steady <| .env he).bind fun _ _ _ => evaluateFor_respects (.same rfl) ha'
    case symbol => exact lookup_steady.bind fun _ _ hv => push hv
    all_goals exact push ha'
  all_goals exact .throw rfl

variable {i i' : PairId}

theorem Alike.pausesAt_iff (hm : m.Alike exact ρ m') (hi : ρ i.ref i'.ref) :
    m.image.store.PausesAt m.control.env i ↔ m'.image.store.PausesAt m'.control.env i' := by
  have hc := hm.image.store.car hi
  simp only [Store.PausesAt]
  generalize m.image.store.car i = v, m'.image.store.car i' = v' at hc
  cases hc
  case symbol x =>
    have hl := hm.image.store.lookup? (x := x) hm.control.env
    simp only
    generalize m.image.store.lookup? _ x = r, m'.image.store.lookup? _ x = r' at hl
    rcases hl with ⟨_ | _⟩ | _ <;> simp
  all_goals rfl

theorem operands_respects (hv : v.Alike ρ v') :
    Respects (likeness exact) ρ (operands v) (operands v') Step.Alike := by
  intro m m' hm
  rw [show operands v m = operandsFrom (m.image.store.totalCells + 1) v m from rfl,
    show operands v' m' = operandsFrom (m'.image.store.totalCells + 1) v' m' from rfl]
  rcases hm.image.store.stops_cases (fun _ _ => hm.pausesAt_iff) hv with
    ⟨n, hn, hn', hle, hle'⟩ | ⟨hn, hn'⟩
  case inl =>
    rw [operandsFrom_of_stops hn (by omega), operandsFrom_of_stops hn' (by omega)]
    exact operandsFrom_respects hv m m' hm
  case inr =>
    have ⟨c, hc⟩ := operandsFrom_of_circles (m.image.store.totalCells + 1) hn
    have ⟨c', hc'⟩ := operandsFrom_of_circles (m'.image.store.totalCells + 1) hn'
    rw [hc, hc']
    exact .fatal rfl { hm.toIdle with }

theorem beginOperands_respects {c c' : Callee} (hc : c.Alike ρ c') (hv : v.Alike ρ v') :
    Respects (likeness exact) ρ (beginOperands c v) (beginOperands c' v') Step.Alike :=
  (push_steady <| .callee hc).bind fun _ _ _ => (push_steady .sentinel).bind fun _ _ _ =>
    operands_respects hv

theorem evalOperand_respects : Respects (likeness exact) ρ evalOperand evalOperand Step.Alike :=
  (onControl_steady Control.popEnv_steady).bind fun _ _ he => (setEnv_steady he).bind fun _ _ _ =>
    popValue_steady.bind fun _ _ hr => val_steady.bind fun _ _ hv =>
      (push_steady <| .value hv).bind fun _ _ _ => operands_respects hr

theorem evalOperator_respects :
    Respects (likeness exact) ρ evalOperator evalOperator Step.Alike := by
  refine val_steady.bind fun proc proc' hp => popValue_steady.bind fun args args' ha => ?_
  refine peekEnv_steady.bind fun _ _ he => (setEnv_steady he).bind fun _ _ _ => ?_
  refine (queryOrFail_steady fun _ _ h => isSpecial_matches h hp).bind fun b _ hb => ?_
  cases hb
  refine .ite .rfl ?_ ?_
  · exact restore_steady.bind fun _ _ _ => applyTo_respects ha hp
  · exact beginOperands_respects (.proc hp) ha

theorem eval_respects : Respects (likeness exact) ρ eval eval Step.Alike := by
  refine get_respects fun m m' hm => ?_
  have he := hm.control.exp
  generalize m.control.exp = exp, m'.control.exp = exp' at he
  have hd := he
  cases he
  case symbol => exact lookup_steady.bind fun _ _ hv => deliver_respects hv
  case pair hi =>
    refine (query_steady fun _ _ h => h.car hi).bind fun operator operator' ho => ?_
    refine (query_steady fun _ _ h => h.cdr hi).bind fun args args' ha => ?_
    refine save_steady.bind fun _ _ _ => (push_steady <| .value ha).bind fun _ _ _ => ?_
    have he : Respects (likeness exact) ρ (evaluateFor .evalOperator operator)
        (evaluateFor .evalOperator operator') Step.Alike := evaluateFor_respects (.same rfl) ho
    cases ho
    case symbol =>
      exact lookup_steady.bind fun _ _ hv => (setVal_steady hv).bind fun _ _ _ =>
        evalOperator_respects
    all_goals exact he
  all_goals exact deliver_respects hd

end StepLisp.Machine
