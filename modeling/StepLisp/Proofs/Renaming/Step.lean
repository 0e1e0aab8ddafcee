import StepLisp.Proofs.Renaming.Closure
import StepLisp.Proofs.Renaming.Form
import StepLisp.Proofs.Renaming.Primitive

namespace StepLisp.Machine

open Act

variable {exact : Prop} {ρ : Renaming} {v v' : Value} {k k' : Step} {m m' : Machine}

-- Templates

theorem quasiquote_respects : Respects (likeness exact) ρ quasiquote quasiquote Step.Alike := by
  refine argl_steady.bind fun _ _ ha => (single_steady ha).bind fun _ _ he => ?_
  exact fun _ _ hm => .ok (le_refl ρ) { hm with control := hm.control.setExp he } <| .same rfl

theorem expandFor_respects (hk : k.Alike ρ k') (hv : v.Alike ρ v') :
    Respects (likeness exact) ρ (expandFor k v) (expandFor k' v') Step.Alike :=
  fun _ _ hm => .ok (le_refl ρ) { hm with control := (hm.control.setExp hv).setCont hk } <|
    .same rfl

theorem templateElement_respects (hv : v.Alike ρ v') :
    Respects (likeness exact) ρ (templateElement v) (templateElement v') Step.Alike := by
  refine (uncons?_steady hv).bind fun p p' hp => ?_
  cases hp
  case none => exact .throw rfl
  case some p p' hp =>
    have ⟨he, hr⟩ := hp
    refine .ite (by rw [hr.isListLike_eq]) ?_ (write_bind hr fun _ => .throw rfl)
    refine (push_steady <| .value hr).bind fun _ _ _ => save_steady.bind fun _ _ _ => ?_
    refine (uncons?_steady he).bind fun q q' hq => ?_
    have hx : Respects (likeness exact) ρ (expandFor .quasiNext p.1) (expandFor .quasiNext p'.1)
        Step.Alike := expandFor_respects (.same rfl) he
    cases hq
    case none => exact hx
    case some q q' hq =>
      obtain ⟨head, operands⟩ := q
      obtain ⟨head', operands'⟩ := q'
      have ⟨hh, ho⟩ := hq
      cases hh
      case symbol =>
        exact .ite .rfl ((single_steady ho).bind fun _ _ hs => evaluateFor_respects (.same rfl) hs)
          hx
      all_goals exact hx

theorem expandList_respects (hv : v.Alike ρ v') :
    Respects (likeness exact) ρ (expandList v) (expandList v') Step.Alike :=
  save_steady.bind fun _ _ _ => (push_steady .sentinel).bind fun _ _ _ =>
    templateElement_respects hv

theorem expand_respects : Respects (likeness exact) ρ expand expand Step.Alike := by
  refine get_respects fun m m' hm => (uncons?_steady hm.control.exp).bind fun p p' hp => ?_
  cases hp
  case none => exact deliver_respects hm.control.exp
  case some p p' hp =>
    obtain ⟨head, operands⟩ := p
    obtain ⟨head', operands'⟩ := p'
    have ⟨hh, ho⟩ := hp
    cases hh
    case symbol =>
      refine .ite .rfl ?_ <| .ite .rfl ?_ <| .ite .rfl ?_ <| expandList_respects hm.control.exp
      · exact save_steady.bind fun _ _ _ => (single_steady ho).bind fun _ _ hv =>
          expandFor_respects (.same rfl) hv
      · exact (single_steady ho).bind fun _ _ hv => evaluate_respects hv
      · have hd : Steady (likeness exact) ρ (discard (single operands))
            (discard (single operands')) fun _ _ => True :=
          (single_steady ho).steady_bind fun _ _ _ => .pure trivial
        exact hd.bind fun _ _ _ => .throw rfl
    all_goals exact expandList_respects hm.control.exp

theorem rewrap_respects : Respects (likeness exact) ρ rewrap rewrap Step.Alike :=
  restore_steady.bind fun _ _ _ => val_steady.bind fun _ _ hv =>
    (onStore_respects <| Store.cons_respects hv .nil).bind fun _ _ _ _ hi =>
      (onStore_respects <| Store.cons_respects (.symbol _) hi).bind fun _ _ _ _ hl =>
        deliver_respects hl

theorem templateRest_respects (hv : v.Alike ρ v') :
    Respects (likeness exact) ρ (templateRest v) (templateRest v') Step.Alike :=
  .ite (by rw [hv.isNil_eq]) (.pure <| .same rfl) (templateElement_respects hv)

theorem templateNext_respects :
    Respects (likeness exact) ρ templateNext templateNext Step.Alike :=
  restore_steady.bind fun _ _ _ => popValue_steady.bind fun _ _ hr => val_steady.bind fun _ _ hv =>
    (push_steady <| .value hv).bind fun _ _ _ => templateRest_respects hr

theorem templateSpliced_respects :
    Respects (likeness exact) ρ templateSpliced templateSpliced Step.Alike := by
  refine restore_steady.bind fun _ _ _ => popValue_steady.bind fun rest rest' hr => ?_
  refine val_steady.bind fun list list' hl => (toList?_steady hl).bind fun items items' hi => ?_
  cases hi
  case none => exact write_bind hl fun _ => .throw rfl
  case some hi =>
    refine (Respects.forIn Value.Alike.monotone hi fun _ _ _ hv =>
      (push_steady <| .value hv).respects fun _ _ _ => trivial).bind fun _ _ _ hρ _ => ?_
    exact templateRest_respects <| hr.mono hρ

theorem templateFinish_respects :
    Respects (likeness exact) ρ templateFinish templateFinish Step.Alike := by
  refine depth_steady.bind fun n _ hn => ?_
  cases hn
  exact (gather_respects (fun _ => rfl) .nil).bind fun _ _ _ _ hl =>
    restore_steady.bind fun _ _ _ => deliver_respects hl

-- Continuations

theorem capture_respects : Respects (likeness exact) ρ capture capture Value.Alike :=
  get_respects fun _ _ hm => onStore_respects <| Store.allocContinuation_respects
    ⟨hm.control.cont, hm.control.slots, hm.control.env, rfl⟩

theorem callWithContinuation_respects :
    Respects (likeness exact) ρ callWithContinuation callWithContinuation Step.Alike := by
  refine argl_steady.bind fun args args' ha => .ite (by rw [ha.isNil_eq]) ?_ ?_
  · exact capture_respects.bind fun _ _ _ _ hk => deliver_respects hk
  refine (uncons?_steady ha).bind fun p p' hp => ?_
  cases hp
  case none => exact .throw rfl
  case some p p' hp =>
    obtain ⟨proc, rest⟩ := p
    obtain ⟨proc', rest'⟩ := p'
    have ⟨hp, hr⟩ := hp
    cases hr
    case nil =>
      refine .ite (by rw [hp.isProcedure_eq]) ?_ (write_bind hp fun _ => .throw rfl)
      exact capture_respects.bind fun _ _ _ hρ hk =>
        (onStore_respects <| Store.cons_respects hk .nil).bind fun _ _ _ hτ hl =>
          applyTo_respects hl <| (hp.mono hρ).mono hτ
    all_goals exact .throw rfl

theorem resumeArgument_steady :
    Steady (likeness exact) ρ resumeArgument resumeArgument (Value.Alike ρ) := by
  refine argl_steady.steady_bind fun args args' ha => (uncons?_steady ha).steady_bind
    fun p p' hp => ?_
  cases hp
  case none => exact .pure .nil
  case some p p' hp =>
    obtain ⟨v, rest⟩ := p
    obtain ⟨v', rest'⟩ := p'
    have ⟨hv, hr⟩ := hp
    cases hr
    case nil => exact .pure hv
    all_goals exact .throw rfl

theorem resume_respects {i i' : ContinuationId} (hi : ρ i.ref i'.ref) :
    Respects (likeness exact) ρ (resume i) (resume i') Step.Alike := by
  have hk : Steady (likeness exact) ρ (queryOrFail (·.continuation i))
      (queryOrFail (·.continuation i')) (Continuation.Alike ρ) := by
    refine queryOrFail_steady fun s s' h => ?_
    have ⟨k, k', hk, hk', hl⟩ := h.continuation hi
    rw [Store.continuation_of_object? hk, Store.continuation_of_object? hk']
    exact .ok hl
  refine resumeArgument_steady.bind fun _ _ hv => hk.bind fun _ _ hk => ?_
  exact (onControl_steady <| Control.resume_steady hk.slots).bind fun _ _ _ =>
    (setEnv_steady hk.env).bind fun _ _ _ => (setCont_steady hk.step).bind fun _ _ _ =>
      deliver_respects hv

-- Traps

theorem trap_respects : Respects (likeness exact) ρ trap trap Step.Alike :=
  argl_steady.bind fun _ _ ha => (single_steady ha).bind fun _ _ he => get_respects fun _ _ hm =>
    (push_steady <| .trap hm.control.env hm.control.cont).bind fun _ _ _ =>
      evaluateFor_respects (.same rfl) he

theorem resumeAt_steady {c c' : Checkpoint} (he : ρ c.env.ref c'.env.ref)
    (hk : c.cont.Alike ρ c'.cont) :
    Steady (likeness exact) ρ (resumeAt c) (resumeAt c') fun _ _ => True :=
  (setEnv_steady he).steady_bind fun _ _ _ => setCont_steady hk

theorem trapDone_respects : Respects (likeness exact) ρ trapDone trapDone Step.Alike :=
  (onControl_steady Control.popCheckpoint_steady).bind fun _ _ ⟨he, hk⟩ =>
    (resumeAt_steady he hk).bind fun _ _ _ => val_steady.bind fun _ _ hv =>
      (onStore_respects <| Store.cons_respects .truth hv).bind fun _ _ _ _ hp => deliver_respects hp

theorem recover_respects {fault : Fault} (h : fault.isDangling = false) :
    Respects (likeness exact) ρ (recover fault) (recover fault) Step.Alike := by
  refine .ite .rfl ?_ (.throw h)
  refine (onControl_steady Control.unwind_steady).bind fun c c' hc => ?_
  cases hc
  case none => exact .throw h
  case some hc =>
    exact (resumeAt_steady hc.left hc.right).bind fun _ _ _ =>
      (onStore_respects Store.allocString_respects).bind fun _ _ _ _ ht =>
        (onStore_respects <| Store.cons_respects .nil ht).bind fun _ _ _ _ hp => deliver_respects hp

-- Application

-- The list of parameters that the form about to be applied is given.
def template? (m : Machine) : Step → Option Value
  | .apply (.builtin i) =>
    match Builtin.ofId? i with
    | some .lambda => lambdaTemplate? m.image.store m.control.argl
    | some .define | some .special => definitionTemplate? m.image.store m.control.argl
    | _ => none
  | _ => none

theorem run_agree {i : BuiltinId} {b : Builtin} (hb : Builtin.ofId? i = some b)
    (hm : m.Alike exact ρ m')
    (he : m.image.store.totalCells = m'.image.store.totalCells ∨
      ∀ v, m.template? (.apply (.builtin i)) = some v → m.image.store.Ends v) :
    Agree (likeness exact) ρ Step.Alike (b.run m) (b.run m') := by
  simp only [template?, hb] at he
  cases b
  case lambda => exact lambda_agree hm he
  case define => exact definition_agree rfl hm he
  case special => exact definition_agree rfl hm he
  all_goals clear he
  case «begin» => exact sequence_respects m m' hm
  case «do» => exact sequence_respects m m' hm
  case «if» => exact conditional_respects m m' hm
  case cond => exact cond_respects m m' hm
  case set => exact assignment_respects m m' hm
  case quote => exact quote_respects m m' hm
  case quasiquote => exact quasiquote_respects m m' hm
  case trap => exact trap_respects m m' hm
  case ffi => exact foreignForm_respects m m' hm
  case cons => exact cons_respects m m' hm
  case car => exact car_respects m m' hm
  case cdr => exact cdr_respects m m' hm
  case setCar => exact setCar_respects m m' hm
  case setCdr => exact setCdr_respects m m' hm
  case isNull => exact isNull_respects m m' hm
  case isAtom => exact isAtom_respects m m' hm
  case eq => exact eq_respects m m' hm
  case equal => exact equal_respects m m' hm
  case add => exact binary_respects m m' hm
  case sub => exact minus_respects m m' hm
  case mul => exact binary_respects m m' hm
  case div => exact binary_respects m m' hm
  case lt => exact lt_respects m m' hm
  case nand => exact nand_respects m m' hm
  case apply => exact apply_respects m m' hm
  case callcc => exact callWithContinuation_respects m m' hm
  case callWithCurrentContinuation => exact callWithContinuation_respects m m' hm
  case eval => exact evalValue_respects m m' hm
  case error => exact error_respects m m' hm
  case exit => exact exit_respects m m' hm
  case print => exact print_respects m m' hm
  case toText => exact toText_respects m m' hm
  case range => exact range_respects m m' hm
  case type => exact type_respects m m' hm

theorem applyProc_agree (hv : v.Alike ρ v') (hm : m.Alike exact ρ m')
    (he : m.image.store.totalCells = m'.image.store.totalCells ∨
      ∀ u, m.template? (.apply v) = some u → m.image.store.Ends u) :
    Agree (likeness exact) ρ Step.Alike (applyProc v m) (applyProc v' m') := by
  have hp := hv
  cases hv
  case builtin i =>
    simp only [applyProc]
    cases hb : Builtin.ofId? i
    case none => exact .fault (le_refl ρ) (.refl rfl) hm
    case some => exact run_agree hb hm he
  case closure hi => exact applyClosure_respects hi m m' hm
  case continuation hi => exact resume_respects hi m m' hm
  all_goals exact write_bind hp (fun _ => .throw rfl) m m' hm

theorem step_agree (hk : k.Alike ρ k') (hm : m.Alike exact ρ m')
    (he : m.image.store.totalCells = m'.image.store.totalCells ∨
      ∀ v, m.template? k = some v → m.image.store.Ends v) :
    Agree (likeness exact) ρ Step.Alike (step k m) (step k' m') := by
  cases hk
  case apply hv => exact applyProc_agree hv hm he
  case same hk =>
    cases k
    case halt => exact .ok (le_refl ρ) hm <| .same rfl
    case eval => exact eval_respects m m' hm
    case apply => cases hk
    case evalOperator => exact evalOperator_respects m m' hm
    case evalOperand => exact evalOperand_respects m m' hm
    case beginNext => exact beginNext_respects m m' hm
    case ifBranch => exact ifBranch_respects m m' hm
    case condNext => exact condNext_respects m m' hm
    case defineBind => exact defineBind_respects m m' hm
    case setBind => exact setBind_respects m m' hm
    case specialBind => exact specialBind_respects m m' hm
    case quasi => exact expand_respects m m' hm
    case quasiRewrap => exact rewrap_respects m m' hm
    case quasiNext => exact templateNext_respects m m' hm
    case quasiSpliced => exact templateSpliced_respects m m' hm
    case quasiFinish => exact templateFinish_respects m m' hm
    case trapDone => exact trapDone_respects m m' hm

end StepLisp.Machine
