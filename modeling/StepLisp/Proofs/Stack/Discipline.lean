import StepLisp.Proofs.Stack.Transition
import StepLisp.Proofs.Store.Collect
import StepLisp.Proofs.Course

namespace StepLisp

open Act

namespace Machine

variable {enters walks : Prop} {k : Step} {σ : List Slot} {v : Value} {m : Machine}

-- Closures

theorem applyClosure_effect {id : ClosureId} :
    Effect True True k σ (applyClosure id) (Goes true k σ) := by
  refine (queryOrFail_plain fun _ => .present).effect_bind fun c =>
    env_plain.effect_bind fun _ => ?_
  refine (allocFrame_detached.keeps allocFrame_obeys).effect_bind fun _ => ?_
  refine argl_plain.effect_bind fun _ => bindParams_plain.effect_bind fun _ => ?_
  exact setEnv_keeps.effect_bind fun _ => evaluate_effect <| .eval rfl

-- Primitives

theorem Delivers.effect {y : Run Step} {hands : Bool} (hy : Delivers walks y) :
    Effect enters walks k σ y (Goes hands k σ) := by
  have ⟨x, hx, he⟩ := hy
  exact he ▸ hx.effect_bind fun _ => deliver_effect .deliver

theorem apply_effect : Effect enters walks k σ apply (Goes true k σ) := by
  refine twoArguments_plain.effect_bind fun (proc, list) => ?_
  simp only
  split
  case isTrue => exact write_plain.effect_bind fun _ => .throw rfl
  case isFalse =>
    split
    case isTrue => exact write_plain.effect_bind fun _ => .throw rfl
    case isFalse => exact applyTo_effect .apply

theorem evaluateUp_effect {n : Nat} : Effect enters walks k σ (evaluateUp v n) (Goes true k σ) :=
  expression_plain.effect_bind fun _ => env_plain.effect_bind fun _ =>
    (queryOrFail_plain fun _ => Store.ancestor_proper).effect_bind fun _ =>
      setEnv_keeps.effect_bind fun _ => evaluate_effect <| .eval rfl

theorem evalValue_effect : Effect enters walks k σ evalValue (Goes true k σ) := by
  refine looseArguments_plain.effect_bind fun vs => ?_
  split
  case h_1 => exact evaluateUp_effect
  case h_2 =>
    split
    case isTrue => exact evaluateUp_effect
    case isFalse => exact write_plain.effect_bind fun _ => .throw rfl
  case h_3 => exact write_plain.effect_bind fun _ => .throw rfl
  case h_4 => exact .throw rfl

-- Steps

end Machine

-- Whether what a builtin evaluates, expands or applies next takes the place of its own application.
def Builtin.handsOver (m : Machine) : Builtin → Bool
  | «begin» | «do» => m.image.store.isLast m.control.argl
  | quasiquote | apply | callcc | callWithCurrentContinuation | eval => true
  | _ => false

-- The same of a step and the expression that it is part of.
def Machine.handsOver (m : Machine) : Step → Bool
  | .apply (.builtin id) => (Builtin.ofId? id).any (·.handsOver m)
  | .apply (.closure _) | .ifBranch => true
  | .condNext => !m.control.val.isNil
  | .beginNext =>
    match m.control.stack.top? with
    | some (.value rest) => m.image.store.isLast rest
    | _ => false
  | .quasi => m.image.store.isUnquote m.control.exp
  | _ => false

-- Only closures add scopes.
def Step.enters : Step → Prop
  | .apply (.closure _) => True
  | _ => False

-- Steps that count the cells they follow, and so have an end if these are there.
def Step.counts : Step → Prop
  | .apply (.closure _) => True
  | .apply (.builtin id) => Builtin.ofId? id = some .equal
  | _ => False

-- Steps that may have no end.
def Machine.Walks (m : Machine) (next : Step) : Prop :=
  m.Circles next ∨ next.counts

namespace Machine

variable {α : Type} {enters walks : Prop} {k : Step} {σ : List Slot} {v : Value} {m : Machine}

theorem run_outcome {id : BuiltinId} {b : Builtin} (hb : Builtin.ofId? id = some b) (h : Fits k σ)
    (hm : At k σ m) : Outcome enters (m.Walks (.apply (.builtin id))) m (Goes (b.handsOver m) k σ)
      (b.run m) := by
  cases b
  case «begin» | «do» => exact sequence_outcome hm
  case «if» => exact conditional_effect m hm
  case cond => exact cond_effect m hm
  case define => exact definition_effect (fun _ _ => .defineBind) m hm
  case set => exact assignment_effect m hm
  case special => exact definition_effect (fun _ _ => .specialBind) m hm
  case quasiquote => exact quasiquote_effect m hm
  case trap => exact trap_effect h m hm
  case ffi => exact (foreignForm_outcome hb hm).imp (fun h => h) .inl fun _ _ _ h => h
  case apply => exact apply_effect m hm
  case callcc | callWithCurrentContinuation => exact callWithContinuation_effect h m hm
  case eval => exact evalValue_effect m hm
  all_goals
    refine ((run_delivers rfl).effect m hm).imp (fun h => h) (fun he => ?_) fun _ _ _ h => h
    exact .inr <| hb.trans <| congrArg some he

theorem applyProc_outcome (h : Fits k σ) (hm : At k σ m) (hc : ∀ id, v ≠ .continuation id) :
    Outcome (Step.apply v).enters (m.Walks (.apply v)) m (Goes (m.handsOver (.apply v)) k σ)
      (applyProc v m) := by
  unfold applyProc
  split
  case h_1 =>
    simp only [handsOver]
    cases hb : Builtin.ofId? _
    case none => exact Effect.throw rfl m hm
    case some b => exact run_outcome hb h hm
  case h_2 =>
    exact (applyClosure_effect m hm).imp id (fun _ => .inr trivial) fun _ _ _ => id
  case h_3 => exact absurd rfl <| hc _
  case h_4 => exact write_plain.effect_bind (fun _ => .throw rfl) m hm

-- A step goes on from the place where its expression stands.
theorem step_goes {next cont : Step} {slots : List Slot} (hs : Standing k σ next cont slots)
    (h : Fits k σ) (hc : ∀ id, next ≠ .apply (.continuation id)) (hm : At cont slots m) :
    Outcome next.enters (m.Walks next) m (Goes (m.handsOver next) k σ) (step next m) := by
  cases hs
  case eval => exact (eval_outcome hm).imp id .inl fun _ _ _ => id
  case apply => exact applyProc_outcome h hm fun id he => hc id <| congrArg _ he
  case quasi => exact expand_outcome hm
  case quasiFinish => exact templateFinish_effect m hm
  case follow ha =>
    cases ha
    case evalOperator => exact (evalOperator_outcome hm).imp id .inl fun _ _ _ => id
    case evalOperand => exact (evalOperand_outcome hm).imp id .inl fun _ _ _ => id
    case beginNext rest _ =>
      have ht : m.control.stack.top? = some (.value rest) := by simp [Stack.top?, hm.slots_eq]
      rw [show m.handsOver .beginNext = m.image.store.isLast rest by simp only [handsOver, ht]]
      exact beginNext_outcome hm
    case ifBranch => exact ifBranch_effect m hm
    case condNext => exact condNext_outcome hm
    case defineBind => exact defineBind_effect m hm
    case setBind => exact setBind_effect m hm
    case specialBind => exact specialBind_effect m hm
    case quasiRewrap => exact rewrap_effect m hm
    case quasiNext hr => exact templateNext_effect hr m hm
    case quasiSpliced hr => exact templateSpliced_effect hr m hm
    case trapDone => exact trapDone_effect m hm

theorem step_outcome {next : Step} (h : Pending next k σ) (hm : At k σ m) :
    Outcome next.enters (m.Walks next) m Pending (step next m) := by
  cases h.halt_or_standing
  case inl he =>
    subst he
    exact Effect.pure h m hm
  case inr hs =>
    have ⟨k', σ', hs, hf⟩ := hs
    by_cases hc : ∃ id, next = .apply (.continuation id)
    case pos =>
      obtain ⟨id, rfl⟩ := hc
      exact resume_effect m hm
    case neg =>
      have hg := step_goes hs hf (fun id he => hc ⟨id, he⟩) hm
      exact hg.weaken fun _ _ _ hg => hg.pending hf

-- The stack is the one that the next step expects, and so is the stack of each continuation.
structure Disciplined (next : Step) (m : Machine) : Prop where
  pending : Pending next m.control.cont m.control.stack.slots
  continuations : m.image.store.ContinuationsFit

theorem Disciplined.at {next : Step} {m : Machine} (h : Disciplined next m) :
    At m.control.cont m.control.stack.slots m :=
  ⟨rfl, rfl, h.pending.trapsFit, h.continuations⟩

theorem control_collectBefore {next : Step} :
    (m.countStep.collectBefore next).control = m.control := by
  unfold Machine.collectBefore
  split <;> rfl

theorem settings_collectBefore {next : Step} :
    (m.countStep.collectBefore next).settings = m.settings := by
  unfold Machine.collectBefore
  split <;> rfl

theorem symbols_collectBefore {next : Step} :
    (m.countStep.collectBefore next).image.symbols = m.image.symbols := by
  unfold Machine.collectBefore
  split <;> rfl

theorem Disciplined.collectBefore {next : Step} {m : Machine} (h : Disciplined next m) :
    Disciplined next (m.countStep.collectBefore next) := by
  unfold Machine.collectBefore
  split
  case isFalse => exact ⟨h.pending, h.continuations⟩
  case isTrue =>
    refine ⟨h.pending, fun i k hk => h.continuations i k ?_⟩
    simp only [Store.collect, Store.sweep, Slab.get?_sweep] at hk
    split at hk
    case isTrue => exact hk
    case isFalse => cases hk

theorem Disciplined.proper_of_step {next : Step} {m m' : Machine} {fault : Fault}
    (h : Disciplined next m) (hs : step next m = .error fault m') : fault.isStack = false := by
  have he := step_outcome h.pending h.at
  rw [hs] at he
  exact he.right.proper

theorem Disciplined.proper {next : Step} {m m' : Machine} {fault : Fault} (h : Disciplined next m)
    (hs : step next (m.countStep.collectBefore next) = .error fault m') :
    fault.isStack = false :=
  h.collectBefore.proper_of_step hs

theorem Disciplined.of_outcome {next' : Step} {m' : Machine}
    (h : Outcome enters walks m Pending (.ok next' m')) : Disciplined next' m' := by
  have ⟨_, _, _, hm, hp⟩ := h
  exact ⟨hm.cont_eq ▸ hm.slots_eq ▸ hp, hm.continuations⟩

-- A fault that is caught is one that the step had.
theorem advance_outcome {next : Step}
    (h : Outcome enters walks (m.countStep.collectBefore next) Pending
      (step next (m.countStep.collectBefore next))) :
    Outcome enters walks (m.countStep.collectBefore next) Pending (advance next m) := by
  unfold Machine.advance
  cases hr : step next (m.countStep.collectBefore next) <;> rw [hr] at h
  case ok => exact h
  case error => exact .of_follows h.left <| recover_outcome h.right

theorem Disciplined.advance {next : Step} {m : Machine} (h : Disciplined next m) :
    Outcome next.enters ((m.countStep.collectBefore next).Walks next)
      (m.countStep.collectBefore next) Pending (advance next m) :=
  advance_outcome <| step_outcome h.collectBefore.pending h.collectBefore.at

-- Actions between two requests

-- Nothing but the image changes.
structure Develops (m m' : Machine) : Prop where
  eq : m' = { m with image := m'.image }
  image : m.image.Evolves m'.image

theorem Develops.evolves {m m' : Machine} (h : Develops m m') :
    m.image.store.Evolves m'.image.store :=
  h.image.store

def between : Rule Machine where
  allows := Develops
  admits fault m := (Store.conduct False).admits fault m.image.store
  refl m := ⟨rfl, .refl _⟩
  trans h h' := ⟨by rw [h'.eq, h.eq], h.image.trans h'.image⟩

theorem onImage_between {x : Act Image α} (h : Obeys (Image.conduct False) x) :
    Obeys between (liftM x : Run α) := by
  rw [show (liftM x : Run α) = onImage x from rfl]
  intro m
  have hs := h m.image
  simp only [onImage]
  cases hr : x m.image <;> simp only [hr] at hs ⊢
  case ok => exact ⟨rfl, hs⟩
  case error => exact ⟨⟨rfl, hs.left⟩, hs.right⟩

theorem define_between {name text : String} : Obeys between (Request.define name text).serve :=
  (onImage_between Image.read_obeys).bind fun _ =>
    ((onImage_between Image.intern_obeys).bind fun _ => Obeys.get.bind fun _ =>
      onImage_between <| Image.onStore_obeys Store.define_obeys).bind fun _ => .pure _

-- What actions between two requests keep, and steps as well, is part of any invariant that steps
-- need for it.
theorem Invariant.and {idle P : Machine → Prop} {busy : Step → Machine → Prop}
    (i : Invariant idle busy)
    (hb : ∀ {settings host output m}, Machine.bare settings host output = .ok m → P m)
    (hx : ∀ {α} {x : Run α} {m}, Obeys between x → P m → P (x.left m))
    (hc : ∀ {m} (c : Control) (n : Nat), P m → P { m with control := c, steps := n })
    (ha : ∀ {next m}, busy next m → P m → P ((Machine.advance next).left m)) :
    Invariant (fun m => idle m ∧ P m) (fun next m => busy next m ∧ P m) := by
  constructor
  case bare => exact fun h => ⟨i.bare h, hb h⟩
  case build =>
    intro d m ⟨h, hp⟩
    have h := i.build d h
    have hp := hx (onImage_between <| Image.build_obeys (d := d)) hp
    cases hr : (liftM (Image.build d) : Run Value) m <;> simp only [hr] at h ⊢
    case ok => exact ⟨h, hc _ _ <| left_of_ok hr ▸ hp⟩
    case error => exact ⟨h, left_of_error hr ▸ hp⟩
  case advance =>
    intro next m ⟨h, hp⟩
    have hp := ha h hp
    have h := i.advance h
    cases hr : Machine.advance next m <;> simp only [hr] at h ⊢
    case ok => exact ⟨h, left_of_ok hr ▸ hp⟩
    case error => exact ⟨h, left_of_error hr ▸ hp⟩
  case stop => exact fun ⟨h, hp⟩ => ⟨i.stop h, hp⟩
  case countStep => exact fun ⟨h, hp⟩ => ⟨i.countStep h, hc _ _ hp⟩
  case reject =>
    exact fun defect _ ⟨h, hp⟩ => ⟨i.reject defect h, hx (onImage_between Image.reject_obeys) hp⟩
  case define => exact fun name text _ ⟨h, hp⟩ => ⟨i.define name text h, hx define_between hp⟩

theorem install_obeys {global : FrameId} {i : Nat} {builtins : List Builtin} :
    Obeys (Image.conduct walks) (install global i builtins) := by
  induction builtins generalizing i
  case nil => exact .pure _
  case cons hi =>
    exact Image.intern_obeys.bind fun _ =>
      Obeys.bind (Image.onStore_obeys Store.define_obeys) fun _ => hi

-- A new machine's image is what becomes of a store with a frame and a table with the groups' names.
theorem image_of_bare {settings : Settings} {host : Host} {output : Output} {m : Machine}
    (h : bare settings host output = .ok m) :
    Image.Evolves {
      store := (Store.allocFrame none).left (.new settings.heapCells settings.gcThreshold)
      symbols := SymbolTable.base.internAll (Group.all.toList.map Group.name) } m.image := by
  have ⟨global, s, ha⟩ : ∃ global s, Store.allocFrame none
      (.new settings.heapCells settings.gcThreshold) = .ok global s := ⟨_, _, rfl⟩
  have hi : Obeys (Image.conduct False)
      (install global 0 Builtin.all.toList >>= fun _ => Pure.pure global) :=
    install_obeys.bind fun _ => .pure _
  have hl := left_of_ok <| built_of_around h
  rw [globals, left_bind_of_ok (Image.onStore_of_ok ha)] at hl
  rw [left_of_ok ha, ← hl]
  exact hi.left ⟨s, _⟩

theorem evolves_of_bare {settings : Settings} {host : Host} {output : Output} {m : Machine}
    (h : bare settings host output = .ok m) :
    ((Store.allocFrame none).left (.new settings.heapCells settings.gcThreshold)).Evolves
      m.image.store :=
  (image_of_bare h).store

theorem continuationsFit_of_bare {settings : Settings} {host : Host} {output : Output} {m : Machine}
    (h : bare settings host output = .ok m) : m.image.store.ContinuationsFit :=
  Store.ContinuationsFit.of_eq (fun _ _ hk => by cases hk) (evolves_of_bare h).continuations_eq

theorem continuationsFit_left {x : Run α} (hx : Obeys between x) {m : Machine}
    (h : m.image.store.ContinuationsFit) : (x.left m).image.store.ContinuationsFit :=
  h.of_eq (hx.left m).evolves.continuations_eq

theorem disciplined_invariant :
    Invariant (·.image.store.ContinuationsFit) Disciplined := by
  constructor
  case bare => exact continuationsFit_of_bare
  case build =>
    intro d m h
    have hl := continuationsFit_left (onImage_between <| Image.build_obeys (d := d)) h
    cases hr : (liftM (Image.build d) : Run Value) m
    case ok => exact ⟨.eval .halt, left_of_ok hr ▸ hl⟩
    case error => exact left_of_error hr ▸ hl
  case advance =>
    intro next m h
    have ha := h.advance
    cases hr : Machine.advance next m <;> rw [hr] at ha
    case ok => exact .of_outcome ha
    case error => exact ha.right.continuations
  case stop => exact fun h => h.continuations
  case countStep => exact id
  case reject => exact fun _ _ => continuationsFit_left <| onImage_between Image.reject_obeys
  case define => exact fun _ _ _ => continuationsFit_left define_between

-- Whatever a session has been through, a step finds on the stack what it pops.
theorem typed_stack {m m' : Machine} {text : String} {n : Nat} {next : Step} (hm : m.Arises)
    (hv : m.Visits text n next m') :
    Pending next m'.control.cont m'.control.stack.slots ∧ m'.image.store.ContinuationsFit ∧
      ∀ fault m'', step next (m'.countStep.collectBefore next) = .error fault m'' →
        fault.isStack = false :=
  have i := disciplined_invariant
  have hd := i.busy_of_visits (i.idle_of_arises hm) hv
  ⟨hd.pending, hd.continuations, fun _ _ => hd.proper⟩

-- A continuation is captured where operands, a template and a trap are waiting, and is resumed by a
-- later form.
def resumption : String :=
  "(define k ())(trap (cons 0 (quasiquote (a (unquote (call/cc (lambda (c) (set! k c) 1)))))))(k 2)"

def resumes (m : Machine) : Bool :=
  match Stage.next^[38] (.reading (Reader.walk resumption.toList) m) with
  | .running _ (_ + 1) (.apply (.continuation id)) m₁ =>
    match Machine.advance (.apply (.continuation id)) m₁ with
    | .ok .quasiNext m₂ =>
      match m₂.control.stack.slots with
      | [.env _, .step .evalOperand, .value .nil, .value (.symbol _), .sentinel,
          .env _, .step .evalOperand, .env _, .value .nil, .value (.int _), .sentinel,
          .callee (.proc _), .env _, .step .trapDone, .trap _] => true
      | _ => false
    | _ => false
  | _ => false

set_option maxRecDepth 20000 in
theorem exists_new_resumes : ∃ m, Machine.new {} default {} = .ok m ∧ resumes m :=
  exists_new_of rfl (by decide +kernel)

theorem typed_stack_resumed : ∃ (m m₁ m₂ : Machine) (n : Nat) (id : ContinuationId),
    Machine.new {} default {} = .ok m ∧
    m.Visits resumption (n + 1) (.apply (.continuation id)) m₁ ∧
    Machine.advance (.apply (.continuation id)) m₁ = .ok .quasiNext m₂ ∧
    (∃ e₁ x e₂ e₃ i f e₄ c, m₂.control.stack.slots =
      [.env e₁, .step .evalOperand, .value .nil, .value (.symbol x), .sentinel,
        .env e₂, .step .evalOperand, .env e₃, .value .nil, .value (.int i), .sentinel,
        .callee (.proc f), .env e₄, .step .trapDone, .trap c]) ∧
    Pending .quasiNext m₂.control.cont m₂.control.stack.slots ∧
    m₂.image.store.ContinuationsFit := by
  obtain ⟨m, hn, ht⟩ := exists_new_resumes
  unfold resumes at ht
  split at ht <;> try exact absurd ht Bool.false_ne_true
  case h_1 rest n id m₁ hA =>
    have hv : m.Visits resumption (n + 1) (.apply (.continuation id)) m₁ :=
      visits_iff_leads.mpr ⟨rest, 38, hA⟩
    split at ht <;> try exact absurd ht Bool.false_ne_true
    case h_1 m₂ ha =>
      have ⟨hp, hc, _⟩ := typed_stack (.new hn) (hv.step nofun ha)
      split at ht <;> try exact absurd ht Bool.false_ne_true
      case h_1 hs =>
        exact ⟨m, m₁, m₂, n, id, hn, hv, ha, ⟨_, _, _, _, _, _, _, _, hs⟩, hp, hc⟩

end Machine
end StepLisp
