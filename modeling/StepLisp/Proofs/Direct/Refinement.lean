import StepLisp.Proofs.Direct.Form
import StepLisp.Proofs.Renaming.Operand

namespace StepLisp

open Act
open Slot (values)

namespace Machine

open Direct (within native Approximates)

variable {α β : Type} {k k₀ : Step} {σ τ : List Slot} {w : World} {e : FrameId} {fuel : Nat}
variable {u a proc args : Value} {m : Machine}
variable {ev : FrameId → Value → Direct Value} {ap : FrameId → Value → Value → Direct Value}

-- Lists of values

theorem within_bind_eq {x : Run α} {f : α → Run β} (hx : Plain True False x) :
    within e (x >>= f) = within e x >>= fun a => within e (f a) := by
  funext w
  have hp := hx.placed_self (w.machine { env := e, argl := .nil } 0)
  simp only [within, native, Bind.bind, EStateM.bind]
  cases hr : x (w.machine { env := e, argl := .nil } 0) <;> rw [hr] at hp
  case ok a m =>
    have hm : m = m.world.machine { env := e, argl := .nil } 0 := by injection hp
    simp only
    rw [← hm]

theorem liftM_consAll {v list : Value} {vs : List Value} :
    (liftM (Store.consAll (v :: vs) list) : Run Value) =
      liftM (Store.cons v list) >>= fun list => liftM (Store.consAll vs list) := by
  funext m
  show onImage (Image.onStore (Store.cons v list >>= Store.consAll vs)) m =
    (onImage (Image.onStore (Store.cons v list)) >>=
      fun list => onImage (Image.onStore (Store.consAll vs list))) m
  simp only [onImage, Image.onStore, Bind.bind, EStateM.bind]
  cases Store.cons v list m.image.store
  case error => rfl
  case ok list s => cases Store.consAll vs list s <;> rfl

theorem gather_simulates {unexpected : Slot → Internal} {n : Nat} {vs : List Value} {list : Value}
    {f : Value → Run Step} {f' : Value → Direct Value} (hn : vs.length < n)
    (h : ∀ list w, Simulates (f list) w ⟨e, k₀, u, a, τ⟩ k σ (f' list)) :
    Simulates (gather unexpected n list >>= f) w ⟨e, k₀, u, a, values vs ++ .sentinel :: τ⟩ k σ
      (within e (Store.consAll vs list) >>= f') := by
  induction vs generalizing n list w
  all_goals
    obtain _ | n := n
    · cases hn
    rw [gather, bind_assoc]
    refine .pop_bind nofun ?_
  case nil => exact h list w
  case cons v vs hi =>
    rw [liftM_consAll, within_bind_eq cons_plain, bind_assoc, bind_assoc]
    exact .within_bind cons_plain fun list w => hi (Nat.lt_of_succ_lt_succ hn)

theorem Simulates.depth_bind {p : Position} {d : Direct Value} {f : Nat → Run Step}
    (h : Simulates (f p.slots.length) w p k σ d) : Simulates (depth >>= f) w p k σ d := by
  rintro hσ m rfl rfl
  have hd := h hσ m rfl rfl
  rw [show m.position.slots.length = m.control.stack.depth from m.control.stack.depth_eq.symm] at hd
  exact hd

theorem finishOperands_simulates (hap : Applies ap) {vs : List Value} :
    Simulates finishOperands w
      ⟨e, k₀, u, a, values vs ++ .sentinel :: .callee (.proc proc) :: .env e :: .step k :: σ⟩ k σ
      (within e (Store.list vs.reverse) >>= ap e proc) := by
  refine .depth_bind ?_
  rw [Store.list, List.reverse_reverse]
  refine gather_simulates (by simp [values]) fun list w => ?_
  exact .popCallee_bind <| .restore_bind <| .setArgl_bind <| .apply hap

-- Operands without end

theorem bind_unfinished {d : Direct α} {f : α → Direct β}
    (h : ∃ w', d w = .error .unfinished w') : ∃ w', (d >>= f) w = .error .unfinished w' := by
  have ⟨w', hw⟩ := h
  exact ⟨w', by simp only [Bind.bind, EStateM.bind, hw]⟩

theorem evaluated_of_not_pausesAt {i : PairId} (hev : Evaluates ev)
    (hp : ¬m.image.store.PausesAt m.control.env i) :
    (∃ w', ev m.control.env (m.image.store.car i) m.world = .error .unfinished w') ∨
      ∃ v, ev m.control.env (m.image.store.car i) m.world = .ok v m.world := by
  simp only [Store.PausesAt] at hp
  generalize m.image.store.car i = arg at hp
  cases arg
  case pair => exact absurd trivial hp
  case symbol x =>
    simp only [ne_eq, not_forall, not_not] at hp
    obtain ⟨v, hv⟩ := hp
    have hp : Plain False False (lookup x) := lookup_plain
    have hd := hp.toDetached
    rcases hev.symbol m.control.env x m.world with hu | he
    case inl => exact .inl hu
    case inr =>
      refine .inr ⟨v, he.symm.trans ?_⟩
      rw [within, native_eq_seen hd rfl False.elim, lookup_of_found hv]
      rfl
  all_goals exact (hev.constant _ _ rfl m.world).imp_right fun he => ⟨_, he.symm⟩

theorem operands_unfinished (hev : Evaluates ev)
    (h : m.image.store.Circles m.control.env args) :
    ∃ w', Direct.operands ev fuel m.control.env args m.world = .error .unfinished w' := by
  induction fuel generalizing args
  case zero => exact ⟨_, rfl⟩
  case succ hf =>
    obtain ⟨i, rfl, hp, hr⟩ := Store.Stops.not_exists h
    show ∃ w', (ev m.control.env (m.image.store.car i) >>= fun v =>
      Direct.operands ev _ m.control.env (m.image.store.cdr i) >>= fun vs => pure (v :: vs))
        m.world = _
    rcases evaluated_of_not_pausesAt hev hp with hu | ⟨v, hv⟩
    case inl => exact bind_unfinished hu
    case inr =>
      simp only [Bind.bind, EStateM.bind, hv]
      exact bind_unfinished (hf hr)

-- Where operands come to an end, the count of pairs does not matter.
theorem operands_simulates {g : List Value → Direct Value} (hev : Evaluates ev)
    (h : ∀ n, fuel ≤ n → Simulates (operandsFrom n args) w ⟨e, k₀, u, a, τ⟩ k σ
      (Direct.operands ev fuel e args >>= g)) :
    Simulates (operands args) w ⟨e, k₀, u, a, τ⟩ k σ (Direct.operands ev fuel e args >>= g) := by
  rintro hσ m rfl hp
  have he : m.control.env = e := congrArg Position.env hp
  by_cases hs : ∃ n, m.image.store.Stops (m.image.store.PausesAt m.control.env) n args
  case neg =>
    subst he
    exact Simulates.of_unfinished (bind_unfinished <| operands_unfinished hev hs) hσ m rfl hp
  case pos =>
    have ⟨n, hn⟩ := hs
    have hb := h (max fuel n) (Nat.le_max_left _ _) hσ m rfl hp
    rw [operandsFrom_of_stops hn (Nat.le_max_right _ _)] at hb
    rw [show operands args m = operandsFrom (m.image.store.totalCells + 1) args m from rfl,
      operandsFrom_of_stops hn hn.le_succ]
    exact hb

-- Operands one after the other

theorem operandsFrom_simulates {g : List Value → Direct Value} {n : Nat} (vs : List Value)
    (hev : Evaluates ev) (h : ∀ vs w k₀ u a,
      Simulates finishOperands w ⟨e, k₀, u, a, values vs ++ τ⟩ k σ (g vs.reverse)) (hn : fuel ≤ n) :
    Simulates (operandsFrom n args) w ⟨e, k₀, u, a, values vs ++ τ⟩ k σ
      (Direct.operands ev fuel e args >>= fun ws => g (vs.reverse ++ ws)) := by
  induction fuel generalizing n args vs w k₀ u a
  case zero => exact .of_unfinished ⟨w, rfl⟩
  case succ fuel hf =>
    obtain _ | n := n
    · cases hn
    have hn := Nat.le_of_succ_le_succ hn
    -- What is left of the operands, once the value of one is on the stack.
    have next {v rest w k₀ u a n} (hn : fuel ≤ n) : Simulates (operandsFrom n rest) w
        ⟨e, k₀, u, a, .value v :: (values vs ++ τ)⟩ k σ
        (Direct.operands ev fuel e rest >>= fun ws => g (vs.reverse ++ v :: ws)) := by
      have hi : Simulates (operandsFrom n rest) w ⟨e, k₀, u, a, values (v :: vs) ++ τ⟩ k σ
        (Direct.operands ev fuel e rest >>= fun ws => g ((v :: vs).reverse ++ ws)) := hf _ hn
      simp only [List.reverse_cons, List.append_assoc, List.singleton_append] at hi
      exact hi
    cases args
    case nil =>
      rw [Direct.operands, pure_bind, List.append_nil]
      exact h vs w k₀ u a
    case pair i =>
      simp only [Direct.operands, bind_assoc, pure_bind]
      refine .query_bind <| .query_bind ?_
      generalize w.image.store.car i = arg, w.image.store.cdr i = rest
      cases arg
      case pair j =>
        refine .push_bind nofun <| .env_bind <| .push_bind nofun <|
          .evaluateFor hev nofun fun v w e' a => ?_
        refine .popEnv_bind <| .setEnv_bind <| .popValue_bind <| .val_bind <| .push_bind nofun ?_
        exact operands_simulates hev fun _ => next
      case symbol x =>
        refine .of_approximates ((hev.symbol e x).bind fun _ => .refl) ?_
        exact .within_bind lookup_plain fun v w => .push_bind nofun <| next hn
      all_goals
        refine .of_approximates ((hev.constant e _ rfl).bind fun _ => .refl) ?_
        rw [pure_bind]
        exact .push_bind nofun <| next hn
    all_goals exact .fail

-- Calls

theorem evalOperator_simulates (hev : Evaluates ev) (hap : Applies ap) {e' : FrameId} :
    Simulates evalOperator w ⟨e', k₀, proc, a, .value args :: .env e :: .step k :: σ⟩ k σ
      (Direct.call ev ap fuel e proc args) := by
  refine .val_bind <| .popValue_bind <| .peekEnv_bind <| .setEnv_bind <|
    .within_bind (queryOrFail_plain fun _ => isSpecial_proper) fun special w => ?_
  cases special
  case true => exact .restore_bind <| .applyTo hap
  case false =>
    refine .push_bind nofun <| .push_bind nofun <| operands_simulates hev fun n hn => ?_
    exact operandsFrom_simulates (g := fun vs => within e (Store.list vs) >>= ap e proc) [] hev
      (fun _ _ _ _ _ => finishOperands_simulates hap) hn

theorem eval_leads (hev : Evaluates (Direct.eval fuel)) (hap : Applies (Direct.apply fuel)) :
    Leads m.control.cont m.control.stack.slots (eval m)
      (Direct.eval (fuel + 1) m.control.env m.control.exp m.world) := by
  rw [eval, get_bind_eq]
  generalize m.control.exp = exp
  refine Simulates.leads ?_
  cases exp
  case symbol x =>
    rw [Direct.eval, ← bind_pure (within _ _)]
    exact .within_bind lookup_plain fun _ _ => .deliver
  case pair i =>
    rw [Direct.eval]
    refine .query_bind <| .query_bind <| .save_bind <| .push_bind nofun ?_
    generalize m.world.image.store.car i = operator, m.world.image.store.cdr i = args
    cases operator
    case symbol x =>
      refine .of_approximates ((hev.symbol _ x).bind fun _ => .refl) ?_
      exact .within_bind lookup_plain fun _ _ => .setVal_bind <| evalOperator_simulates hev hap
    all_goals exact .evaluateFor hev nofun fun _ _ _ _ => evalOperator_simulates hev hap
  all_goals exact .deliver

theorem applyProc_simulates (hev : Evaluates (Direct.eval fuel))
    (hap : Applies (Direct.apply fuel)) : Simulates (applyProc proc) w ⟨e, k, u, a, σ⟩ k σ
      (Direct.apply (fuel + 1) e proc a) := by
  cases proc
  case builtin id =>
    simp only [applyProc, Direct.apply]
    generalize Builtin.ofId? id = b
    cases b
    case some => exact run_simulates hev hap
    case none => exact .fail
  case closure => exact closure_simulates hev
  case continuation => exact .beyond
  all_goals exact .fail_of_text

theorem eval_apply_refine (fuel : Nat) :
    Evaluates (Direct.eval fuel) ∧ Applies (Direct.apply fuel) := by
  induction fuel
  case zero =>
    exact ⟨⟨fun _ => trivial, fun _ _ => .unfinished, fun _ _ _ => .unfinished⟩, fun _ _ => trivial⟩
  case succ fuel hf =>
    have ⟨hev, hap⟩ := hf
    refine ⟨⟨fun m => ?_, fun _ _ => .refl, fun _ v hv => ?_⟩, fun proc m => ?_⟩
    · exact Leads.meets nofun <| eval_leads hev hap (m := m.countStep)
    · cases v
      case symbol | pair => cases hv
      all_goals exact .refl
    · exact Leads.meets nofun <| applyProc_simulates hev hap rfl m.countStep rfl rfl

-- The evaluation of any expression, wherever the machine is to go on with its value, and whatever
-- is on the stack. As long as no collection is due, the steps are those of a session.
theorem eval_refines (fuel : Nat) (m : Machine) :
    match Direct.eval fuel m.control.env m.control.exp m.world with
    | .ok v w => ∃ m', Runs .eval m m.control.cont m' ∧ m'.world = w ∧
      m'.control.cont = m.control.cont ∧ m'.control.stack = m.control.stack ∧
      m'.control.val = v ∧ (Undue .eval m m.control.cont m' → ∃ j, ∀ rest n,
        Course (.running rest (n + j) .eval m) (.running rest n m.control.cont m'))
    | .error (.fault fault) w => ∃ next m' m'', Runs .eval m next m' ∧
      step next m'.countStep = .error fault m'' ∧ m''.world = w ∧
      m''.checkpoints = m.checkpoints ∧ (Undue .eval m next m' →
        (∃ j, ∀ rest n, Course (.running rest (n + j) .eval m) (.running rest n next m')) ∧
        advance next m' = recover fault m'')
    | .error .unfinished _ | .error .beyond _ => True := by
  have hr := (eval_apply_refine fuel).left.meets m
  generalize Direct.eval fuel m.control.env m.control.exp m.world = r at hr
  rcases r with ⟨v, w⟩ | ⟨fault | _ | _, w⟩
  · have ⟨m', hr, hw, hk, hσ, hv⟩ := hr
    exact ⟨m', hr, hw, hk, Stack.eq_of_slots_eq hσ, hv, hr.course⟩
  · have ⟨next, m', m'', hr, hs, hw, hc⟩ := hr
    refine ⟨next, m', m'', hr, hs, hw, hc, fun hd => ⟨hr.course hd, ?_⟩⟩
    simp only [advance, collectBefore_of_not_due <| hd next m' hr .refl, hs]
  all_goals trivial

-- A closure whose body is a sequence: an assignment, and a product of what has been assigned.
def multiplies (m : Machine) : Bool :=
  match read "((lambda (x) (set! x 4) (* x x)) 3)" m with
  | .ok exp m =>
    match Direct.eval 20 m.global exp m.world with
    | .ok (.int n) _ => n = 16
    | _ => false
  | _ => false

theorem eval_refines_product : ∃ (m m' : Machine) (n : Int64), Runs .eval m .halt m' ∧
    m'.control.stack = .empty ∧ m'.control.val = .int n ∧ n = 16 := by
  obtain ⟨m, _, ht⟩ := exists_bare_of {} default {} multiplies (by decide +kernel)
  unfold multiplies at ht
  split at ht
  case h_2 => cases ht
  case h_1 exp m _ =>
    split at ht
    case h_2 => cases ht
    case h_1 n w hd =>
      have hr := eval_refines 20 (m.started exp)
      rw [show Direct.eval 20 (m.started exp).control.env (m.started exp).control.exp
        (m.started exp).world = .ok (.int n) w from hd] at hr
      obtain ⟨m', hr, _, _, hs, hv, _⟩ := hr
      exact ⟨m.started exp, m', n, hr, hs, hv, of_decide_eq_true ht⟩

end Machine
end StepLisp
