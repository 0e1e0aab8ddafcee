import StepLisp.Machine.Form
import StepLisp.Proofs.Renaming.Operand

namespace StepLisp

open Act

variable {exact : Prop} {ρ : Renaming} {v v' w w' u u' : Value} {m m' : Machine} {n fuel : Nat}

namespace Machine

-- begin, if and cond

theorem sequence_respects : Respects (likeness exact) ρ sequence sequence Step.Alike := by
  refine argl_steady.bind fun body body' hb => (uncons?_steady hb).bind fun p p' hp => ?_
  cases hp
  case none => exact .ite (by rw [hb.isNil_eq]) (deliver_respects .nil) (.throw rfl)
  case some p p' hp =>
    obtain ⟨first, rest⟩ := p
    obtain ⟨first', rest'⟩ := p'
    have ⟨hf, hr⟩ := hp
    have more : Respects (likeness exact) ρ
        (do liftM Control.save; liftM (Control.push (.value rest)); evaluateFor .beginNext first)
        (do liftM Control.save; liftM (Control.push (.value rest')); evaluateFor .beginNext first')
        Step.Alike :=
      save_steady.bind fun _ _ _ => (push_steady <| .value hr).bind fun _ _ _ =>
        evaluateFor_respects (.same rfl) hf
    cases hr
    case nil => exact evaluate_respects hf
    all_goals exact more

theorem beginNext_respects : Respects (likeness exact) ρ beginNext beginNext Step.Alike := by
  refine popValue_steady.bind fun rest rest' hr => peekEnv_steady.bind fun _ _ he => ?_
  refine (setEnv_steady he).bind fun _ _ _ => (uncons?_steady hr).bind fun p p' hp => ?_
  cases hp
  case none => exact .throw rfl
  case some p p' hp =>
    obtain ⟨next, rest⟩ := p
    obtain ⟨next', rest'⟩ := p'
    have ⟨hn, hr⟩ := hp
    have more : Respects (likeness exact) ρ
        (do liftM (Control.push (.value rest)); evaluateFor .beginNext next)
        (do liftM (Control.push (.value rest')); evaluateFor .beginNext next') Step.Alike :=
      (push_steady <| .value hr).bind fun _ _ _ => evaluateFor_respects (.same rfl) hn
    cases hr
    case nil => exact restore_steady.bind fun _ _ _ => evaluate_respects hn
    all_goals exact more

theorem testFor_respects (hu : u.Alike ρ u') (hv : v.Alike ρ v') (hw : w.Alike ρ w') :
    Respects (likeness exact) ρ (testFor u v w) (testFor u' v' w') Step.Alike :=
  save_steady.bind fun _ _ _ => (push_steady <| .value hv).bind fun _ _ _ =>
    (push_steady <| .value hw).bind fun _ _ _ => evaluateFor_respects (.same rfl) hu

theorem conditional_respects : Respects (likeness exact) ρ conditional conditional Step.Alike := by
  refine argl_steady.bind fun _ _ ha => (toList?_steady ha).bind fun vs vs' hv => ?_
  rcases hv with ⟨_ | ⟨h₁, _ | ⟨h₂, _ | ⟨h₃, _ | ⟨_, _⟩⟩⟩⟩⟩ | _
  · exact .throw rfl
  · exact .throw rfl
  · exact testFor_respects h₁ h₂ .nil
  · exact testFor_respects h₁ h₂ h₃
  · exact .throw rfl
  · exact .throw rfl

theorem ifBranch_respects : Respects (likeness exact) ρ ifBranch ifBranch Step.Alike := by
  refine popValue_steady.bind fun _ _ ha => popValue_steady.bind fun _ _ hc => ?_
  refine restore_steady.bind fun _ _ _ => val_steady.bind fun _ _ hv => evaluate_respects ?_
  rw [hv.isNil_eq]
  split
  case isTrue => exact ha
  case isFalse => exact hc

theorem testClause_respects (hv : v.Alike ρ v') :
    Respects (likeness exact) ρ (testClause v) (testClause v') Step.Alike := by
  refine (uncons?_steady hv).bind fun p p' hp => ?_
  cases hp
  case none =>
    exact .ite (by rw [hv.isNil_eq]) (restore_steady.bind fun _ _ _ => deliver_respects .nil)
      (.throw rfl)
  case some p p' hp =>
    have ⟨hc, hr⟩ := hp
    refine (uncons?_steady hc).bind fun q q' hq => ?_
    cases hq
    case none => exact write_bind hc fun _ => .throw rfl
    case some hq =>
      exact peekEnv_steady.bind fun _ _ he => (setEnv_steady he).bind fun _ _ _ =>
        (push_steady <| .value hr).bind fun _ _ _ => (push_steady <| .value hq.right).bind
          fun _ _ _ => evaluateFor_respects (.same rfl) hq.left

theorem cond_respects : Respects (likeness exact) ρ cond cond Step.Alike :=
  argl_steady.bind fun _ _ hc => save_steady.bind fun _ _ _ => testClause_respects hc

theorem condNext_respects : Respects (likeness exact) ρ condNext condNext Step.Alike := by
  refine popValue_steady.bind fun body body' hb => popValue_steady.bind fun rest rest' hr => ?_
  refine val_steady.bind fun _ _ hv => .ite (by rw [hv.isNil_eq]) (testClause_respects hr) ?_
  refine restore_steady.bind fun _ _ _ => (uncons?_steady hb).bind fun p p' hp => ?_
  cases hp
  case none => exact .ite (by rw [hb.isNil_eq]) proceed_respects (.throw rfl)
  case some p p' hp =>
    obtain ⟨first, rest⟩ := p
    obtain ⟨first', rest'⟩ := p'
    have ⟨hf, hr⟩ := hp
    have more : Respects (likeness exact) ρ
        (do evaluate (← Store.cons (.symbol .beginForm) body))
        (do evaluate (← Store.cons (.symbol .beginForm) body')) Step.Alike :=
      (onStore_respects <| Store.cons_respects (.symbol _) hb).bind fun _ _ _ _ hv =>
        evaluate_respects hv
    cases hr
    case nil => exact evaluate_respects hf
    all_goals exact more

-- lambda

theorem checkParamsFrom_steady (hv : v.Alike ρ v') :
    Steady (likeness exact) ρ (checkParamsFrom fuel v) (checkParamsFrom fuel v')
      fun _ _ => True := by
  induction fuel generalizing v v'
  all_goals
    have hw := hv
    cases hv
  case zero.nil | succ.nil | zero.symbol | succ.symbol => exact .pure trivial
  case succ.pair fuel hf i i' hi =>
    refine (query_steady fun _ _ h => h.car hi).steady_bind fun param param' hp => ?_
    have hx := hp
    cases hp
    case symbol => exact (query_steady fun _ _ h => h.cdr hi).steady_bind fun _ _ hr => hf hr
    all_goals exact write_bind hx fun _ => .throw rfl
  all_goals exact write_bind hw fun _ => .throw rfl

-- A pair that does not hold a parameter.
def NoSymbolAt (s : Store) (i : PairId) : Prop :=
  ∀ x, s.car i ≠ .symbol x

theorem checkParamsFrom_of_stops (h : m.image.store.Stops (NoSymbolAt m.image.store) n v)
    (hn : n ≤ fuel) : checkParamsFrom fuel v m = checkParamsFrom n v m := by
  induction h generalizing fuel
  case atom v hv => cases fuel <;> cases v <;> first | rfl | cases hv
  all_goals
    obtain _ | fuel := fuel
    · cases hn
  case last i h =>
    simp only [NoSymbolAt] at h
    simp only [checkParamsFrom, query, Bind.bind, EStateM.bind]
  case pair i n h _ hi =>
    simp only [NoSymbolAt, ne_eq, not_forall, not_not] at h
    obtain ⟨x, hx⟩ := h
    simp only [checkParamsFrom, query, Bind.bind, EStateM.bind, hx]
    exact hi <| Nat.le_of_succ_le_succ hn

theorem checkParams_agree (hm : m.Alike exact ρ m') (hv : v.Alike ρ v')
    (he : m.image.store.totalCells = m'.image.store.totalCells ∨ m.image.store.Ends v) :
    Agree (likeness exact) ρ (fun τ _ _ => τ = ρ ∧ True) (checkParams v m) (checkParams v' m') := by
  rw [show checkParams v m = checkParamsFrom (m.image.store.totalCells + 1) v m from rfl,
    show checkParams v' m' = checkParamsFrom (m'.image.store.totalCells + 1) v' m' from rfl]
  rcases he with he | he
  case inl =>
    rw [he]
    exact checkParamsFrom_steady hv m m' hm
  case inr =>
    have hs (i i' : PairId) (hi : ρ i.ref i'.ref) :
        (NoSymbolAt m.image.store) i ↔ (NoSymbolAt m'.image.store) i' := by
      have hc := hm.image.store.car hi
      simp only [NoSymbolAt]
      generalize m.image.store.car i = param, m'.image.store.car i' = param' at hc
      cases hc <;> simp
    rcases hm.image.store.stops_cases hs hv with ⟨n, hn, hn', hle, hle'⟩ | ⟨hn, _⟩
    case inl =>
      rw [checkParamsFrom_of_stops hn (by omega), checkParamsFrom_of_stops hn' (by omega)]
      exact checkParamsFrom_steady hv m m' hm
    case inr => exact absurd he.stops hn

theorem makeClosure_agree {special : Bool} (hm : m.Alike exact ρ m') (hv : v.Alike ρ v')
    (hw : w.Alike ρ w')
    (he : m.image.store.totalCells = m'.image.store.totalCells ∨ m.image.store.Ends v) :
    Agree (likeness exact) ρ Value.Alike (makeClosure v w special m)
      (makeClosure v' w' special m') := by
  refine (checkParams_agree hm hv he).bind fun _ _ _ _ ⟨hτ, _⟩ => hτ ▸ ?_
  have close {τ} {u u'} (hρ : ρ ≤ τ) (hu : u.Alike τ u') : Respects (likeness exact) τ
      (do Store.allocClosure { params := v, body := u, env := ← env, special })
      (do Store.allocClosure { params := v', body := u', env := ← env, special }) Value.Alike :=
    env_steady.bind fun _ _ he => onStore_respects <| Store.allocClosure_respects
      ⟨hv.mono hρ, hu, he, rfl⟩
  refine (uncons?_steady hw).bind fun p p' hp => ?_
  cases hp
  case none => exact .throw rfl
  case some p p' hp =>
    obtain ⟨first, rest⟩ := p
    obtain ⟨first', rest'⟩ := p'
    have ⟨hf, hr⟩ := hp
    have more : Respects (likeness exact) ρ
        (do
          let body ← Store.cons (.symbol .beginForm) w
          Store.allocClosure { params := v, body, env := ← env, special })
        (do
          let body ← Store.cons (.symbol .beginForm) w'
          Store.allocClosure { params := v', body, env := ← env, special }) Value.Alike :=
      (onStore_respects <| Store.cons_respects (.symbol _) hw).bind fun _ _ _ hρ hu => close hρ hu
    cases hr
    case nil => exact close (le_refl ρ) hf
    all_goals exact more

-- The list of parameters in the operands of `lambda`, and in those of `define` and `special`.
def lambdaTemplate? (s : Store) (args : Value) : Option Value :=
  (s.uncons? args).map Prod.fst

def definitionTemplate? (s : Store) (args : Value) : Option Value := do
  let (target, _) ← s.uncons? args
  let (_, params) ← s.uncons? target
  return params

theorem lambda_eq : lambda m =
    match m.image.store.uncons? m.control.argl with
    | some (params, .pair rest) => (makeClosure params (.pair rest) false >>= deliver) m
    | _ => .error (.malformed (.atLeastTwo Builtin.lambda.name)) m := by
  simp only [lambda, argl, atLeastTwo, query, Bind.bind, EStateM.bind]
  rcases m.image.store.uncons? m.control.argl with _ | ⟨params, rest⟩
  · rfl
  · cases rest <;> rfl

theorem lambda_agree (hm : m.Alike exact ρ m')
    (he : m.image.store.totalCells = m'.image.store.totalCells ∨
      ∀ v, lambdaTemplate? m.image.store m.control.argl = some v → m.image.store.Ends v) :
    Agree (likeness exact) ρ Step.Alike (lambda m) (lambda m') := by
  have hu := hm.image.store.uncons? hm.control.argl
  rw [lambda_eq, lambda_eq]
  simp only [lambdaTemplate?] at he
  generalize m.image.store.uncons? _ = p, m'.image.store.uncons? _ = p' at hu he
  cases hu
  case none => exact .fault (le_refl ρ) (.refl rfl) hm
  case some p p' hp =>
    obtain ⟨params, rest⟩ := p
    obtain ⟨params', rest'⟩ := p'
    have ⟨hv, hr⟩ := hp
    have hw := hr
    cases hr
    case pair =>
      exact (makeClosure_agree hm hv hw <| he.imp_right fun he => he params rfl).bind
        fun _ _ _ _ hc => deliver_respects hc
    all_goals exact .fault (le_refl ρ) (.refl rfl) hm

-- define, set! and special

theorem evaluateNamed_respects {cont : Step} (hk : cont.value? = none) (hv : v.Alike ρ v')
    (hw : w.Alike ρ w') :
    Respects (likeness exact) ρ (evaluateNamed cont v w) (evaluateNamed cont v' w') Step.Alike := by
  refine (single_steady hw).bind fun _ _ he => (symbolOperand_steady hv).bind fun x _ hx => ?_
  cases hx
  exact save_steady.bind fun _ _ _ => (push_steady <| .value <| .symbol x).bind fun _ _ _ =>
    evaluateFor_respects (.same hk) he

theorem definition_eq {form : Builtin} {special : Bool} {cont : Step} :
    definition form special cont m =
      match m.image.store.uncons? m.control.argl with
      | some (target, .pair rest) =>
        match m.image.store.uncons? target with
        | some (.symbol x, params) =>
          (makeClosure params (.pair rest) special >>= fun v => do define x v; deliver .nil) m
        | some (name, _) => (write name >>= fun text => malformed (.notSymbol text)) m
        | none => evaluateNamed cont target (.pair rest) m
      | _ => .error (.malformed (.atLeastTwo form.name)) m := by
  simp only [definition, argl, atLeastTwo, query, Bind.bind, EStateM.bind]
  rcases m.image.store.uncons? m.control.argl with _ | ⟨target, rest⟩
  · rfl
  · cases rest
    case pair i =>
      simp only [Pure.pure, EStateM.pure]
      rcases m.image.store.uncons? target with _ | ⟨name, params⟩
      · rfl
      · cases name <;> rfl
    all_goals rfl

theorem definition_agree {form : Builtin} {special : Bool} {cont : Step} (hk : cont.value? = none)
    (hm : m.Alike exact ρ m')
    (he : m.image.store.totalCells = m'.image.store.totalCells ∨
      ∀ v, definitionTemplate? m.image.store m.control.argl = some v → m.image.store.Ends v) :
    Agree (likeness exact) ρ Step.Alike (definition form special cont m)
      (definition form special cont m') := by
  have hu := hm.image.store.uncons? hm.control.argl
  rw [definition_eq, definition_eq]
  simp only [definitionTemplate?] at he
  generalize m.image.store.uncons? _ = p, m'.image.store.uncons? _ = p' at hu he
  cases hu
  case none => exact .fault (le_refl ρ) (.refl rfl) hm
  case some p p' hp =>
    obtain ⟨target, rest⟩ := p
    obtain ⟨target', rest'⟩ := p'
    have ⟨ht, hr⟩ := hp
    have hw := hr
    cases hr
    case pair =>
      have hq := hm.image.store.uncons? ht
      simp only [Option.bind_eq_bind, Option.bind_some] at he ⊢
      generalize m.image.store.uncons? target = q, m'.image.store.uncons? target' = q' at hq he
      cases hq
      case none => exact evaluateNamed_respects hk ht hw m m' hm
      case some q q' hq =>
        obtain ⟨name, params⟩ := q
        obtain ⟨name', params'⟩ := q'
        have ⟨hn, hp⟩ := hq
        have hx := hn
        cases hn
        case symbol x =>
          exact (makeClosure_agree hm hp hw <| he.imp_right fun he => he params rfl).bind
            fun _ _ _ _ hc => (define_steady hc).bind fun _ _ _ => deliver_respects .nil
        all_goals exact write_bind hx (fun _ => .throw rfl) m m' hm
    all_goals exact .fault (le_refl ρ) (.refl rfl) hm

theorem assignment_respects : Respects (likeness exact) ρ assignment assignment Step.Alike :=
  argl_steady.bind fun _ _ ha => (atLeastTwo_steady ha).bind fun _ _ ⟨ht, hb⟩ =>
    evaluateNamed_respects rfl ht hb

theorem popSymbol_steady : Steady (likeness exact) ρ popSymbol popSymbol Eq := by
  refine popValue_steady.steady_bind fun v v' hv => ?_
  cases hv
  case symbol => exact .pure rfl
  all_goals exact .throw rfl

theorem defineBind_respects : Respects (likeness exact) ρ defineBind defineBind Step.Alike := by
  refine popSymbol_steady.bind fun x _ hx => restore_steady.bind fun _ _ _ => ?_
  cases hx
  exact val_steady.bind fun _ _ hv => (define_steady hv).bind fun _ _ _ => deliver_respects .nil

theorem setBind_respects : Respects (likeness exact) ρ setBind setBind Step.Alike := by
  refine popSymbol_steady.bind fun x _ hx => restore_steady.bind fun _ _ _ => ?_
  cases hx
  exact env_steady.bind fun _ _ he => val_steady.bind fun _ _ hv =>
    (onImage_respects <| Image.assign_steady he hv).bind fun _ _ _ _ _ => deliver_respects .nil

theorem value?_alike {name : String} (h : Builtin.value? name = some v) : v.Alike ρ v := by
  obtain ⟨i, _, rfl⟩ := Option.map_eq_some_iff.mp h
  exact .builtin _

theorem rawOperands_respects (hv : v.Alike ρ v') :
    Respects (likeness exact) ρ (rawOperands v) (rawOperands v') Value.Alike := by
  unfold rawOperands
  split
  case h_1 => exact .throw rfl
  case h_2 apply ha =>
    refine (onImage_steady Image.intern_steady).bind fun x _ hx => ?_
    cases hx
    have hl : List.Forall₂ (Value.Alike ρ) [apply, v, .symbol x] [apply, v', .symbol x] :=
      .cons (value?_alike ha) <| .cons hv <| .cons (.symbol x) .nil
    exact (onStore_respects <| Store.list_respects hl).bind fun _ _ _ _ hb =>
      env_steady.bind fun _ _ he => onStore_respects <| Store.allocClosure_respects
        ⟨.symbol x, hb, he, rfl⟩

theorem makeSpecial_respects (hv : v.Alike ρ v') :
    Respects (likeness exact) ρ (makeSpecial v) (makeSpecial v') Value.Alike := by
  have hp := hv
  cases hv
  case closure hi =>
    exact (onStore_respects <| Store.markClosure_steady hi).bind fun _ _ _ hρ _ =>
      .pure <| hp.mono hρ
  case continuation hi =>
    exact (onStore_respects <| Store.markContinuation_steady hi).bind fun _ _ _ hρ _ =>
      .pure <| hp.mono hρ
  case builtin =>
    refine (queryOrFail_steady fun _ _ h => isSpecial_matches h hp).bind fun b _ hb => ?_
    cases hb
    exact .ite .rfl (.pure hp) (rawOperands_respects hp)
  all_goals exact write_bind hp fun _ => .throw rfl

theorem specialBind_respects : Respects (likeness exact) ρ specialBind specialBind Step.Alike := by
  refine popSymbol_steady.bind fun x _ hx => restore_steady.bind fun _ _ _ => ?_
  cases hx
  exact val_steady.bind fun _ _ hv => (makeSpecial_respects hv).bind fun _ _ _ _ hp =>
    (define_steady hp).bind fun _ _ _ => deliver_respects .nil

-- quote and ffi

theorem quote_respects : Respects (likeness exact) ρ quote quote Step.Alike :=
  argl_steady.bind fun _ _ ha => (single_steady ha).bind fun _ _ hv => deliver_respects hv

theorem foreignForm_respects : Respects (likeness exact) ρ foreignForm foreignForm Step.Alike := by
  refine argl_steady.bind fun _ _ ha => (atLeastTwo_steady ha).bind fun p p' hp => ?_
  refine (uncons?_steady hp.right).bind fun q q' hq => ?_
  cases hq
  case none => exact .throw rfl
  case some hq =>
    refine (symbolOperand_steady hp.left).bind fun g _ hg => ?_
    refine (symbolOperand_steady hq.left).bind fun f _ hf => get_respects fun m m' hm => ?_
    cases hg
    cases hf
    simp only [hm.image.symbols]
    split
    case h_1 => exact .throw rfl
    case h_2 i _ =>
      exact save_steady.bind fun _ _ _ => beginOperands_respects (.foreign i f) hq.right

end Machine
end StepLisp
