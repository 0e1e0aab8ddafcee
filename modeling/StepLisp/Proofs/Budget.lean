import StepLisp.Proofs.Scoping

namespace StepLisp

open Act

namespace Machine

variable {enters walks : Prop} {k : Step} {σ : List Slot} {m m' : Machine} {ρ : Renaming}
variable {v w : Value} {fuel : Nat} {frame : FrameId} {i : PairId}

-- Parameters

theorem bindParamsFrom_atom_plain {sees : Prop} (hv : v.isPair = false) :
    Plain walks sees (bindParamsFrom frame fuel v w) := by
  cases fuel <;> cases v <;> try cases hv
  case zero.nil | succ.nil => exact .ite .pure <| write_plain.bind fun _ => malformed_plain
  case zero.symbol | succ.symbol => exact storeDefine_plain
  all_goals exact malformed_plain

theorem bindParamsFrom_last (hm : At k σ m) (h : m.image.store.NoParamAt i ∨ w.isPair = false) :
    Outcome enters walks m (fun _ k' σ' => k' = k ∧ σ' = σ)
      (bindParamsFrom frame (fuel + 1) (.pair i) w m) := by
  simp only [Store.NoParamAt] at h
  simp only [bindParamsFrom, query, Bind.bind, EStateM.bind]
  generalize m.image.store.car i = param at h
  cases param
  case symbol x =>
    by_cases hx : x = .ampersand
    case pos =>
      simp only [if_pos hx]
      refine query_plain.effect_bind (fun parts => ?_) m hm
      split
      case h_1 => exact storeDefine_plain.keeps k σ
      case h_2 => exact .throw rfl
    case neg =>
      simp only [if_neg hx]
      have hw : w.isPair = false := h.resolve_left fun h => hx <| h x rfl
      cases w <;> first | exact Effect.throw rfl m hm | cases hw
  all_goals exact Effect.throw rfl m hm

theorem cells_of_storeDefine {x : Symbol} {u : Unit}
    (h : (liftM (Store.define frame x v) : Run Unit) m = .ok u m') :
    m'.image.store.cells = m.image.store.cells := by
  cases hd : Store.define frame x v m.image.store
  case ok s =>
    rw [onStore_of_ok hd] at h
    cases h
    exact cells_of_define hd
  case error =>
    rw [show (liftM (Store.define frame x v) : Run Unit) =
      onImage (Image.onStore (Store.define frame x v)) from rfl] at h
    simp only [onImage, Image.onStore, hd] at h
    cases h

-- Parameters are walked through without end only if they and the arguments have none.
theorem bindParamsFrom_outcome (hm : At k σ m)
    (hf : ∀ n, m.image.store.Binds n v w → n ≤ fuel) :
    Outcome enters (¬∃ n, m.image.store.Binds n v w) m (fun _ k' σ' => k' = k ∧ σ' = σ)
      (bindParamsFrom frame fuel v w m) := by
  induction fuel generalizing v w m <;> cases v
  case zero.pair =>
    refine ⟨.refl m, hm.failed <| .endless <| .inl fun ⟨n, hn⟩ => ?_⟩
    obtain rfl := Nat.le_zero.mp (hf n hn)
    cases hn
    contradiction
  case succ.pair fuel hi i =>
    by_cases hl : m.image.store.NoParamAt i ∨ w.isPair = false
    case pos => exact bindParamsFrom_last hm hl
    case neg =>
      have ⟨hp, hw⟩ := not_or.mp hl
      cases w <;> try exact absurd rfl hw
      case pair j =>
        have ⟨x, hx, hne⟩ : ∃ x, m.image.store.car i = .symbol x ∧ x ≠ .ampersand := by
          simpa [Store.NoParamAt] using hp
        have hd : Outcome enters (¬∃ n, m.image.store.Binds n (.pair i) (.pair j)) m _
          ((liftM (Store.define frame x (m.image.store.car j)) : Run Unit) m) :=
            storeDefine_plain.keeps k σ m hm
        simp only [bindParamsFrom, query, Store.uncons?, Bind.bind, EStateM.bind, hx, if_neg hne]
        cases hr : (liftM (Store.define frame x (m.image.store.car j)) : Run Unit) m <;>
          rw [hr] at hd
        case error => exact hd
        case ok u m' =>
          obtain ⟨hm', _, _, hm'', rfl, rfl⟩ := hd
          have hc := cells_of_storeDefine hr
          refine .of_follows hm' <| (hi hm'' fun n hn => ?_).imp id ?_ fun _ _ _ => id
          · exact Nat.le_of_succ_le_succ <| hf _ <| .pair hp <| hn.of_cells hc.symm
          · rintro hn ⟨_, hb | hb | ⟨_, hb⟩⟩
            · contradiction
            · exact hl hb
            · exact hn ⟨_, hb.of_cells hc⟩
  all_goals exact (bindParamsFrom_atom_plain rfl).keeps k σ m hm

theorem applyClosure_outcome {id : ClosureId} (hm : At k σ m)
    (hf : ∀ c n, m.image.store.closure id = .ok c →
      m.image.store.Binds n c.params m.control.argl → n ≤ m.image.store.totalCells) :
    Outcome True (m.Circles (.apply (.closure id))) m (Goes true k σ) (applyClosure id m) := by
  cases hc : m.image.store.closure id
  case error fault =>
    have hp : Proper (m.Circles (.apply (.closure id)) ∨ ¬m.image.store.Scoped)
      (m.image.store.closure id) := .present
    rw [applyClosure]
    simp only [queryOrFail, Bind.bind, EStateM.bind, hc]
    exact ⟨.refl m, hm.failed <| hp.admitted hc⟩
  case ok c =>
    rw [applyClosure_eq hc]
    generalize (if c.special then m.control.env else c.env) = e
    obtain ⟨frame, s, ha⟩ : ∃ frame s, Store.allocFrame (some e) m.image.store = .ok frame s :=
      ⟨_, _, rfl⟩
    have hs : s.cells = m.image.store.cells := by cases ha; rfl
    have hm' : At k σ { m with image := { m.image with store := s } } := by
      cases ha
      exact hm.of_eq rfl rfl
    have hfl : m.Follows True { m with image := { m.image with store := s } } := by
      cases ha
      exact ⟨rfl, rfl, rfl, .of_cells rfl rfl rfl rfl (Nat.le_succ _), .refl _, .inl trivial⟩
    have hb : Outcome True (m.Circles (.apply (.closure id)))
        { m with image := { m.image with store := s } } (fun _ k' σ' => k' = k ∧ σ' = σ)
        (bindParamsFrom frame s.totalCells c.params m.control.argl
          { m with image := { m.image with store := s } }) := by
      refine (bindParamsFrom_outcome hm' fun n hn => ?_).imp (fun h => h) (fun hn => ?_)
        fun _ _ _ h => h
      · rw [Store.totalCells, hs]
        exact hf c n hc <| hn.of_cells hs.symm
      · exact .closure hc fun hb => hn <| hb.imp fun _ hb => hb.of_cells hs
    rw [enter_eq ha]
    refine .of_follows hfl <| hb.bind fun _ _ _ h => h.left ▸ h.right ▸ ?_
    exact setEnv_keeps.effect_bind fun _ => evaluate_effect <| .eval rfl

-- Equality

theorem equal_outcome (hm : At k σ m) (ha : m.Alike True ρ m) :
    Outcome enters walks m (Goes false k σ) (equal m) := by
  have hp : Outcome enters walks m _ (twoArguments .equal m) := twoArguments_plain.keeps k σ m hm
  have hs := twoArguments_steady (b := .equal) m m ha
  simp only [equal, Bind.bind, EStateM.bind]
  cases hr : twoArguments .equal m <;> rw [hr] at hp hs
  case error => exact hp
  case ok p m' =>
    obtain ⟨hf, _, _, hm', rfl, rfl⟩ := hp
    cases hs
    case ok hp hl =>
      obtain ⟨rfl, hv, hw⟩ := hp
      have ⟨b, hb, _⟩ := hl.image.store.equal hv hw
      simp only [queryOrFail, hb]
      exact .of_follows hf <| deliver_effect .deliver m' hm'

-- Steps

-- Where everything that is held on to is there, counting cells is enough.
theorem step_outcome_of_alike (hd : Disciplined k m) (ha : m.Alike True ρ m) (hk : k.Alike ρ k) :
    Outcome k.enters (m.Circles k) m Pending (step k m) := by
  by_cases hc : k.counts
  case neg =>
    exact (step_outcome hd.pending hd.at).imp id (fun h => h.resolve_right hc) fun _ _ _ => id
  case pos =>
    cases k <;> try exact hc.elim
    case apply v =>
      have hf := hd.pending.fits_of_apply
      cases v <;> try exact hc.elim
      case builtin id =>
        have hb : Builtin.ofId? id = some .equal := hc
        rw [step, applyProc, hb]
        exact (equal_outcome hd.at ha).weaken fun _ _ _ hg => hg.pending hf
      case closure id =>
        cases hk
        case same h => cases h
        case apply hv =>
          cases hv
          case closure hi =>
            refine (applyClosure_outcome hd.at fun c n hc hn => ?_).weaken fun _ _ _ hg =>
              hg.pending hf
            obtain ⟨c', _, hc', _, hl⟩ := ha.image.store.closure hi
            cases hc.symm.trans (Store.closure_of_object? hc')
            exact ha.image.store.binds_le hn hl.params ha.control.argl

theorem beginOperands_of_circles {callee : Callee} {args : Value}
    (h : m.image.store.Circles m.control.env args) :
    ∃ m', beginOperands callee args m = .error .endless m' := by
  have ⟨c, hc⟩ := operandsFrom_of_circles (m.image.store.totalCells + 1)
    (m := { m with control := (m.control.pushed (.callee callee)).pushed .sentinel }) h
  exact ⟨_, hc⟩

theorem evalOperator_of_circles {args : Value} {e : FrameId}
    (hσ : m.control.stack.slots = .value args :: .env e :: σ)
    (hs : isSpecial m.image.store m.control.val = .ok false) (h : m.image.store.Circles e args) :
    ∃ m', evalOperator m = .error .endless m' := by
  rw [evalOperator_eq hσ]
  simp only [queryOrFail, Bind.bind, EStateM.bind]
  rw [show (m.lowered e (.env e :: σ)).image.store = m.image.store from rfl, hs]
  exact beginOperands_of_circles h

theorem foreignForm_of_circles {j : PairId} {group function : Symbol} {g : GroupId}
    (ha : m.control.argl = .pair i) (hg : m.image.store.car i = .symbol group)
    (hr : m.image.store.cdr i = .pair j) (hf : m.image.store.car j = .symbol function)
    (hn : Group.id? (m.image.symbols.name group) = some g)
    (h : m.image.store.Circles m.control.env (m.image.store.cdr j)) :
    ∃ m', foreignForm m = .error .endless m' := by
  simp only [foreignForm, argl, atLeastTwo, query, Bind.bind, EStateM.bind, ha, Store.uncons?, hr,
    hg, Pure.pure, EStateM.pure, symbolOperand, hf]
  rw [show (get : Run Machine) m = .ok m m from rfl]
  simp only [hn]
  let c := (m.control.pushed (.step m.control.cont)).pushed (.env m.control.env)
  exact beginOperands_of_circles (m := { m with control := c }) h

theorem applyClosure_of_circles {id : ClosureId} {c : Closure} (hs : m.image.store.Sound)
    (hc : m.image.store.closure id = .ok c)
    (h : ¬∃ n, m.image.store.Binds n c.params m.control.argl) :
    ∃ m', applyClosure id m = .error .endless m' := by
  rw [applyClosure_eq hc]
  generalize (if c.special then m.control.env else c.env) = e
  have ⟨frame, s, ha, _, hp⟩ := Store.allocFrame_puts (some e) hs
  have hcells : s.cells = m.image.store.cells := by cases ha; rfl
  have hf : s.object? frame.ref = _ := (hp.object?_eq _).trans <| if_pos rfl
  have ⟨_, _, _, hb⟩ := bindParamsFrom_of_not_binds s.totalCells
    (m := { m with image := { m.image with store := s } }) hp.sound hf
    fun ⟨n, hn⟩ => h ⟨n, hn.of_cells hcells.symm⟩
  rw [enter_eq ha]
  simp only [enterFor, Bind.bind, EStateM.bind, hb]
  exact ⟨_, rfl⟩

theorem step_of_circles (hs : m.image.store.Sound) (h : m.Circles k) :
    ∃ m', step k m = .error .endless m' := by
  cases h
  case eval i x proc he hc hl hp h =>
    rw [step, eval_eq he hc hl]
    exact evalOperator_of_circles rfl hp h
  case evalOperator hσ hp h => exact evalOperator_of_circles hσ hp h
  case evalOperand rest e σ hσ h =>
    have ⟨c, hc⟩ := operandsFrom_of_circles (m.image.store.totalCells + 1)
      (m := (m.lowered e σ).pushed m.control.val) h
    rw [step, evalOperand_eq hσ]
    exact ⟨_, hc⟩
  case foreign hb ha hg hr hf hn h =>
    rw [step, applyProc, hb]
    exact foreignForm_of_circles ha hg hr hf hn h
  case closure hc h => exact applyClosure_of_circles hs hc h

theorem advance_endless_iff (hd : Disciplined k m) (hs : m.Scoped) (ha : m.Alike True ρ m)
    (hk : k.Alike ρ k) :
    (∃ m', advance k m = .error .endless m') ↔ (m.countStep.collectBefore k).Circles k := by
  have ⟨τ, hc, hkc⟩ := ha.countStep.collectBefore hk
  constructor
  case mp =>
    intro ⟨m', hr⟩
    have ho := advance_outcome <| step_outcome_of_alike hd.collectBefore hc hkc
    have hs' : m'.Scoped := left_of_error hr ▸ scoped_advance hd hs ha hk
    rw [hr] at ho
    cases ho.right.admitted
    case plain h => cases h
    case endless h => exact h.resolve_right fun hn => hn ⟨_, hs'⟩
  case mpr =>
    intro h
    have ⟨m', hm'⟩ := step_of_circles hc.image.store.sound h
    exact ⟨m', by rw [advance, hm']; rfl⟩

theorem steps_collectBefore : (m.countStep.collectBefore k).steps = m.steps + 1 := by
  unfold collectBefore
  split <;> rfl

end Machine

open Machine

-- The steps taken and those to go make up the budget.
def Stage.Budgeted : Stage → Prop
  | .running _ n _ m => m.steps + n = m.settings.maxSteps
  | _ => True

theorem Reached.budgeted {t : Stage} (h : Reached t) : t.Budgeted := by
  obtain ⟨settings, host, output, m, hb, hc⟩ := h
  induction hc
  case refl => trivial
  case tail t t' hc hm hi =>
    cases hm
    case start => exact Nat.zero_add _
    case step n k m₁ k' m₂ hn ha =>
      have hd : Disciplined k m₁ := disciplined_invariant.holds ⟨settings, host, output, m, hb, hc⟩
      have ho := hd.advance
      rw [ha] at ho
      simp only [Stage.Budgeted] at hi ⊢
      rw [ho.left.steps_eq, ho.left.settings_eq, steps_collectBefore, settings_collectBefore]
      omega
    all_goals trivial

section Main

variable {rest : Reader.Contents (Datum × Nat)} {n : Nat} {k : Step} {m : Machine}

theorem Reached.advance_endless_iff (h : Reached (.running rest n k m)) :
    (∃ m', advance k m = .error .endless m') ↔ (m.countStep.collectBefore k).Circles k := by
  have ⟨⟨hd, ρ, ha, hk⟩, hs⟩ := scoped_invariant.holds h
  exact Machine.advance_endless_iff hd hs ha hk

-- A run has no end only because of a step that it comes to.
theorem Reached.circles_of_runFor {m' : Machine} (h : Reached (.running rest n k m))
    (hr : runFor n k m = .error .endless m') :
    ∃ n₁ k₁ m₁, Course (.running rest n k m) (.running rest n₁ k₁ m₁) ∧
      (m₁.countStep.collectBefore k₁).Circles k₁ := by
  induction n generalizing k m <;> rcases Classical.em (k = .halt) with rfl | hn
  case zero.inl | succ.inl => cases hr
  case zero.inr =>
    rw [runFor_zero hn] at hr
    cases hr
  case succ.inr n hi =>
    rw [runFor_succ_apply hn] at hr
    cases ha : advance k m <;> simp only [ha] at hr
    case ok k' m₁ =>
      have hc : Course (.running rest (n + 1) k m) (.running rest n k' m₁) := .single (.step hn ha)
      have ⟨n₂, k₂, m₂, hc₂, h₂⟩ := hi (h.course hc) hr
      exact ⟨n₂, k₂, m₂, hc.trans hc₂, h₂⟩
    case error =>
      cases hr
      exact ⟨n + 1, k, m, .refl, h.advance_endless_iff.mp ⟨_, ha⟩⟩

-- The budget bounds a run, a step has no end exactly if there is a cycle for it to go round in, and
-- a run none only if it comes to such a step.
theorem endless_iff_circles (h : Reached (.running rest n k m)) :
    m.steps + n = m.settings.maxSteps ∧
    ((∃ m', advance k m = .error .endless m') ↔ (m.countStep.collectBefore k).Circles k) ∧
    ((∃ m', runFor n k m = .error .endless m') →
      ∃ n₁ k₁ m₁, Course (.running rest n k m) (.running rest n₁ k₁ m₁) ∧
        (m₁.countStep.collectBefore k₁).Circles k₁) :=
  ⟨h.budgeted, h.advance_endless_iff, fun ⟨_, hr⟩ => h.circles_of_runFor hr⟩

-- A list that is its own rest is evaluated: the same name is the operator and every operand.
def circle : String :=
  "(define p '(car)) (set-cdr! p p) (eval p)"

def circling (m : Machine) : Bool :=
  match Stage.next^[14] (.reading (Reader.walk circle.toList) m) with
  | .running _ _ .eval m₁ =>
    match advance .eval m₁ with
    | .error .endless _ => true
    | _ => false
  | _ => false

theorem endless_iff_circles_eval : ∃ rest n m, Reached (.running rest n .eval m) ∧
    m.steps + n = m.settings.maxSteps ∧ (∃ m', advance .eval m = .error .endless m') ∧
      (m.countStep.collectBefore .eval).Circles .eval := by
  obtain ⟨m, hb, ht⟩ := exists_bare_of {} default {} circling (by decide +kernel)
  have h₀ : Reached (.reading (Reader.walk circle.toList) m) :=
    reached_request (.bare hb) _
  unfold circling at ht
  split at ht
  case h_2 => cases ht
  case h_1 rest n m₁ hA =>
    split at ht
    case h_2 => cases ht
    case h_1 m₂ he =>
      have hr : Reached (.running rest n .eval m₁) := hA ▸ h₀.iterate 14
      have ⟨hn, hc, _⟩ := endless_iff_circles hr
      exact ⟨rest, n, m₁, hr, hn, ⟨m₂, he⟩, hc.mp ⟨m₂, he⟩⟩

end Main
end StepLisp
