import StepLisp.Proofs.Checkpoint.Guards
import StepLisp.Proofs.Course
import StepLisp.Proofs.Direct.Evaluator
import StepLisp.Proofs.Stack.Operation

namespace StepLisp

open Act Direct

-- Expressions that are their own value.
def Value.isConstant : Value → Bool
  | .symbol _ | .pair _ => false
  | _ => true

namespace Machine

-- Steps taken one after the other, with no collection in between.
inductive Runs : Step → Machine → Step → Machine → Prop
  | refl {k m} : Runs k m k m
  | head {k m k₁ m₁ k₂ m₂} : k ≠ .halt → step k m.countStep = .ok k₁ m₁ → Runs k₁ m₁ k₂ m₂ →
    Runs k m k₂ m₂

variable {α : Type} {k k' : Step} {σ τ : List Slot} {m m' : Machine} {v : Value} {e : FrameId}

theorem Runs.trans {k₁ k₂ k₃ : Step} {m₁ m₂ m₃ : Machine} (h : Runs k₁ m₁ k₂ m₂)
    (h' : Runs k₂ m₂ k₃ m₃) : Runs k₁ m₁ k₃ m₃ := by
  induction h
  case refl => exact h'
  case head hk hs _ hi => exact .head hk hs <| hi h'

-- Nowhere on the way from one state to another a collection is due.
def Undue (k : Step) (m : Machine) (k' : Step) (m' : Machine) : Prop :=
  ∀ k₁ m₁, Runs k m k₁ m₁ → Runs k₁ m₁ k' m' → m₁.image.store.isCollectionDue = false

-- A session then goes through the same steps.
theorem Runs.course (h : Runs k m k' m') (hd : Undue k m k' m') :
    ∃ j, ∀ rest n, Course (.running rest (n + j) k m) (.running rest n k' m') := by
  induction h
  case refl => exact ⟨0, fun _ _ => .refl⟩
  case head k m k₁ m₁ _ _ hk hs hr hi =>
    have ⟨j, hj⟩ := hi fun k₁ m₁ h h' => hd k₁ m₁ (.head hk hs h) h'
    have ha : advance k m = .ok k₁ m₁ := by
      simp only [advance, collectBefore_of_not_due <| hd k m .refl (.head hk hs hr), hs]
    exact ⟨j + 1, fun rest n => .head (.step hk ha) (hj rest n)⟩

-- From a step on, the machine comes to an outcome of a direct evaluation. A value is there when
-- `k` is next, on the stack `σ`. A fault is one that can be caught where one on `σ` can.
def Meets (next : Step) (m : Machine) (k : Step) (σ : List Slot) :
    EStateM.Result Interruption World Value → Prop
  | .ok v w => ∃ m', Runs next m k m' ∧ m'.world = w ∧ m'.control.cont = k ∧
    m'.control.stack.slots = σ ∧ m'.control.val = v
  | .error (.fault fault) w => ∃ next' m' m'', Runs next m next' m' ∧
    step next' m'.countStep = .error fault m'' ∧ m''.world = w ∧
    m''.checkpoints = StepLisp.checkpoints σ
  | .error .unfinished _ | .error .beyond _ => True

theorem Meets.after {next next' : Step} {r : EStateM.Result Interruption World Value}
    (h : Runs next m next' m') (hm : Meets next' m' k σ r) : Meets next m k σ r := by
  rcases r with ⟨v, w⟩ | ⟨fault | _ | _, w⟩
  · have ⟨m'', hr, hm''⟩ := hm
    exact ⟨m'', h.trans hr, hm''⟩
  · have ⟨k₁, m₁, m₂, hr, hm₂⟩ := hm
    exact ⟨k₁, m₁, m₂, h.trans hr, hm₂⟩
  all_goals trivial

-- The rest of a transition has an outcome from which the machine comes to that of an evaluation.
def Leads (k : Step) (σ : List Slot) : EStateM.Result Fault Machine Step →
    EStateM.Result Interruption World Value → Prop
  | .ok next m, r => Meets next m k σ r
  | .error _ _, .ok .. => False
  | .error fault m, .error (.fault fault') w =>
    fault = fault' ∧ m.world = w ∧ m.checkpoints = StepLisp.checkpoints σ
  | .error _ _, .error .unfinished _ | .error _ _, .error .beyond _ => True

theorem Leads.meets {next : Step} {r : EStateM.Result Interruption World Value}
    (hn : next ≠ .halt) (h : Leads k σ (step next m.countStep) r) : Meets next m k σ r := by
  cases hr : step next m.countStep <;> rw [hr] at h
  case ok => exact .after (.head hn hr .refl) h
  case error fault m' =>
    rcases r with ⟨v, w⟩ | ⟨fault' | _ | _, w⟩
    · exact h.elim
    · obtain ⟨rfl, hw⟩ := h
      exact ⟨next, m, m', .refl, hr, hw⟩
    all_goals trivial

-- Where a computation stands, apart from the expression that it has begun with.
structure Position where
  env : FrameId
  cont : Step
  val : Value
  argl : Value
  slots : List Slot

def position (m : Machine) : Position :=
  ⟨m.control.env, m.control.cont, m.control.val, m.control.argl, m.control.stack.slots⟩

-- In a world and a position, the rest of a transition leads to what an evaluation comes to. What
-- the transition has put on the stack by then are not checkpoints.
def Simulates (y : Run Step) (w : World) (p : Position) (k : Step) (σ : List Slot)
    (d : Direct Value) : Prop :=
  StepLisp.checkpoints p.slots = StepLisp.checkpoints σ →
    ∀ m, m.world = w → m.position = p → Leads k σ (y m) (d w)

-- What an action that is detached from the control state does to the world.
def seen : EStateM.Result Fault Machine α → EStateM.Result Interruption World α
  | .ok a m => .ok a m.world
  | .error fault m => .error (.fault fault) m.world

theorem seen_placed {c : Control} {n : Nat} {r : EStateM.Result Fault Machine α} :
    seen (placed c n r) = seen r := by
  cases r <;> rfl

theorem native_eq_seen {sees : Prop} {x : Run α} (hx : Detached sees x) {argl : Value}
    (he : m.control.env = e) (ha : sees → m.control.argl = argl) :
    native e argl x m.world = seen (x m) := by
  have hp := hx.placed_eq (m.world.machine { env := e, argl } 0) m.control m.steps he ha
  have hm : x m = placed m.control m.steps (x (m.world.machine { env := e, argl } 0)) := hp
  rw [hm, seen_placed]
  cases hr : x (m.world.machine { env := e, argl } 0) <;> simp only [native, hr, seen]

namespace Simulates

variable {w : World} {p : Position} {d d' : Direct Value} {y : Run Step} {a : Value}

theorem leads (h : Simulates y m.world m.position k m.control.stack.slots d) :
    Leads k m.control.stack.slots (y m) (d m.world) :=
  h rfl m rfl rfl

theorem of_unfinished (h : ∃ w', d w = .error .unfinished w') : Simulates y w p k σ d := by
  have ⟨w', hw⟩ := h
  intro _ m _ _
  rw [hw]
  cases y m <;> trivial

theorem unfinished : Simulates y w p k σ (throw .unfinished) :=
  of_unfinished ⟨w, rfl⟩

theorem beyond : Simulates y w p k σ (throw .beyond) := by
  intro _ m _ _
  show Leads k σ (y m) (.error .beyond w)
  cases y m <;> trivial

theorem of_approximates (hd : Approximates d d') (h : Simulates y w p k σ d') :
    Simulates y w p k σ d := by
  rcases hd w with hu | he
  case inl => exact of_unfinished hu
  case inr =>
    intro hσ m hw hp
    rw [← he]
    exact h hσ m hw hp

-- Operations on objects

theorem fail {fault : Fault} : Simulates (throw fault) w p k σ (Direct.fail fault) := by
  rintro hσ m rfl rfl
  exact ⟨rfl, rfl, hσ⟩

theorem fail_of_text {cause : String → Fault} :
    Simulates (do throw (cause (← write v))) w p k σ (within e do throw (cause (← write v))) := by
  rintro hσ m rfl rfl
  exact ⟨rfl, rfl, hσ⟩

theorem query_bind {g : Store → α} {f : α → Run Step} {f' : α → Direct Value}
    (h : Simulates (f (g w.image.store)) w p k σ (f' (g w.image.store))) :
    Simulates (query g >>= f) w p k σ (Direct.read g >>= f') := by
  rintro hσ m rfl hp
  exact h hσ m rfl hp

variable {f : α → Run Step} {f' : α → Direct Value}

theorem detached_bind {sees : Prop} {x : Run α} {argl : Value} (hx : Detached sees x)
    (ha : sees → p.argl = argl) (h : ∀ a w, Simulates (f a) w p k σ (f' a)) :
    Simulates (x >>= f) w p k σ (native p.env argl x >>= f') := by
  rintro hσ m rfl rfl
  have hs : native m.position.env argl x m.world = seen (x m) := native_eq_seen hx rfl ha
  have hc := hx.control_left m
  simp only [Bind.bind, EStateM.bind, hs]
  cases hr : x m
  case ok a m' =>
    rw [left_of_ok hr] at hc
    exact h a m'.world hσ m' rfl <| by rw [position, hc, position]
  case error fault m' =>
    rw [left_of_error hr] at hc
    exact ⟨rfl, rfl, by rw [checkpoints, hc]; exact hσ⟩

theorem native_bind {sees : Prop} {x : Run α} {argl : Value} (hx : Plain True sees x)
    (ha : sees → p.argl = argl) (h : ∀ a w, Simulates (f a) w p k σ (f' a)) :
    Simulates (x >>= f) w p k σ (native p.env argl x >>= f') :=
  detached_bind hx.toDetached ha h

theorem within_bind {x : Run α} (hx : Plain True False x)
    (h : ∀ a w, Simulates (f a) w p k σ (f' a)) :
    Simulates (x >>= f) w p k σ (within p.env x >>= f') :=
  native_bind hx nofun h

-- Operations on registers and stack

theorem argl_bind {f : Value → Run Step} (h : Simulates (f p.argl) w p k σ d) :
    Simulates (argl >>= f) w p k σ d := by
  rintro hσ m rfl rfl
  exact h hσ m rfl rfl

theorem val_bind {f : Value → Run Step} (h : Simulates (f p.val) w p k σ d) :
    Simulates (val >>= f) w p k σ d := by
  rintro hσ m rfl rfl
  exact h hσ m rfl rfl

theorem env_bind {f : FrameId → Run Step} (h : Simulates (f p.env) w p k σ d) :
    Simulates (env >>= f) w p k σ d := by
  rintro hσ m rfl rfl
  exact h hσ m rfl rfl

theorem setEnv_bind {f : Unit → Run Step} (h : Simulates (f ()) w { p with env := e } k σ d) :
    Simulates (setEnv e >>= f) w p k σ d := by
  rintro hσ m rfl rfl
  exact h hσ _ rfl rfl

theorem setVal_bind {f : Unit → Run Step} (h : Simulates (f ()) w { p with val := v } k σ d) :
    Simulates (setVal v >>= f) w p k σ d := by
  rintro hσ m rfl rfl
  exact h hσ _ rfl rfl

theorem setArgl_bind {f : Unit → Run Step} (h : Simulates (f ()) w { p with argl := v } k σ d) :
    Simulates (setArgl v >>= f) w p k σ d := by
  rintro hσ m rfl rfl
  exact h hσ _ rfl rfl

theorem push_bind {slot : Slot} {f : Unit → Run Step} (hs : ∀ c, slot ≠ .trap c)
    (h : Simulates (f ()) w { p with slots := slot :: p.slots } k σ d) :
    Simulates (liftM (Control.push slot) >>= f) w p k σ d := by
  rintro hσ m rfl rfl
  exact h ((checkpoints_cons hs).trans hσ) _ rfl rfl

theorem save_bind {f : Unit → Run Step}
    (h : Simulates (f ()) w { p with slots := .env p.env :: .step p.cont :: p.slots } k σ d) :
    Simulates (liftM Control.save >>= f) w p k σ d := by
  rintro hσ m rfl rfl
  exact h hσ _ rfl rfl

-- An operation that finds what it expects.
theorem control_bind {x : Act Control α} {p' : Position} {a : α}
    (hx : ∀ m : Machine, m.position = p → ∃ c, x m.control = .ok a c ∧
      position { m with control := c } = p')
    (h : Simulates (f a) w p' k σ d)
    (hc : StepLisp.checkpoints p'.slots = StepLisp.checkpoints p.slots) :
    Simulates (liftM x >>= f) w p k σ d := by
  intro hσ m hw hp
  have ⟨c, hr, hp'⟩ := hx m hp
  simp only [Bind.bind, EStateM.bind, liftM_of_ok hr]
  exact h (hc.trans hσ) _ hw hp'

variable {k₀ : Step} {u : Value}

theorem pop_bind {slot : Slot} {f : Slot → Run Step} (hs : ∀ c, slot ≠ .trap c)
    (h : Simulates (f slot) w ⟨e, k₀, u, a, τ⟩ k σ d) :
    Simulates (liftM Control.pop >>= f) w ⟨e, k₀, u, a, slot :: τ⟩ k σ d := by
  refine control_bind (fun m hp => ?_) h (checkpoints_cons hs).symm
  simp only [position, Position.mk.injEq] at hp
  obtain ⟨rfl, rfl, rfl, rfl, hτ⟩ := hp
  exact ⟨_, Control.pop_eq hτ, rfl⟩

theorem popValue_bind {f : Value → Run Step} (h : Simulates (f v) w ⟨e, k₀, u, a, τ⟩ k σ d) :
    Simulates (liftM Control.popValue >>= f) w ⟨e, k₀, u, a, .value v :: τ⟩ k σ d := by
  rw [Control.popValue, liftM_bind, bind_assoc]
  exact pop_bind (by rintro _ ⟨⟩) h

theorem popEnv_bind {e' : FrameId} {f : FrameId → Run Step}
    (h : Simulates (f e') w ⟨e, k₀, u, a, τ⟩ k σ d) :
    Simulates (liftM Control.popEnv >>= f) w ⟨e, k₀, u, a, .env e' :: τ⟩ k σ d := by
  rw [Control.popEnv, liftM_bind, bind_assoc]
  exact pop_bind (by rintro _ ⟨⟩) h

theorem popCallee_bind {callee : Callee} {f : Callee → Run Step}
    (h : Simulates (f callee) w ⟨e, k₀, u, a, τ⟩ k σ d) :
    Simulates (liftM Control.popCallee >>= f) w ⟨e, k₀, u, a, .callee callee :: τ⟩ k σ d := by
  rw [Control.popCallee, liftM_bind, bind_assoc]
  exact pop_bind (by rintro _ ⟨⟩) h

theorem peekEnv_bind {e' : FrameId} {f : FrameId → Run Step}
    (h : Simulates (f e') w ⟨e, k₀, u, a, .env e' :: τ⟩ k σ d) :
    Simulates (liftM Control.peekEnv >>= f) w ⟨e, k₀, u, a, .env e' :: τ⟩ k σ d := by
  refine control_bind (fun m hp => ⟨m.control, ?_, hp⟩) h rfl
  simp only [position, Position.mk.injEq] at hp
  exact Control.peekEnv_eq hp.right.right.right.right

theorem restore_bind {e' : FrameId} {f : Unit → Run Step}
    (h : Simulates (f ()) w ⟨e', k', u, a, τ⟩ k σ d) :
    Simulates (liftM Control.restore >>= f) w ⟨e, k₀, u, a, .env e' :: .step k' :: τ⟩ k σ d := by
  refine control_bind (fun m hp => ?_) h rfl
  simp only [position, Position.mk.injEq] at hp
  obtain ⟨rfl, rfl, rfl, rfl, hτ⟩ := hp
  exact ⟨_, Control.restore_eq hτ, rfl⟩

-- Ways for a transition to end

theorem deliver : Simulates (deliver v) w ⟨e, k, u, a, σ⟩ k σ (pure v) := by
  rintro hσ m rfl hp
  simp only [position, Position.mk.injEq] at hp
  obtain ⟨rfl, rfl, rfl, rfl, rfl⟩ := hp
  exact ⟨_, .refl, rfl, rfl, rfl, rfl⟩

theorem proceed : Simulates proceed w ⟨e, k, v, a, σ⟩ k σ (pure v) := by
  rintro hσ m rfl hp
  simp only [position, Position.mk.injEq] at hp
  obtain ⟨rfl, rfl, rfl, rfl, rfl⟩ := hp
  exact ⟨_, .refl, rfl, rfl, rfl, rfl⟩

end Simulates

-- The machine evaluates expressions as `ev` does; names and constants are nothing special.
structure Evaluates (ev : FrameId → Value → Direct Value) : Prop where
  meets (m : Machine) : Meets .eval m m.control.cont m.control.stack.slots
    (ev m.control.env m.control.exp m.world)
  symbol (env : FrameId) (x : Symbol) : Approximates (ev env (.symbol x)) (within env (lookup x))
  constant (env : FrameId) (v : Value) : v.isConstant → Approximates (ev env v) (pure v)

-- The machine applies procedures as `ap` does.
def Applies (ap : FrameId → Value → Value → Direct Value) : Prop :=
  ∀ proc m, Meets (.apply proc) m m.control.cont m.control.stack.slots
    (ap m.control.env proc m.control.argl m.world)

namespace Simulates

variable {ev : FrameId → Value → Direct Value} {ap : FrameId → Value → Value → Direct Value}
variable {w : World} {exp proc args u a : Value} {f' : Value → Direct Value} {k₀ : Step}

-- An evaluation in place of the present one.
theorem evaluate (hev : Evaluates ev) :
    Simulates (evaluate exp) w ⟨e, k, u, a, σ⟩ k σ (ev e exp) := by
  rintro hσ m rfl hp
  simp only [position, Position.mk.injEq] at hp
  obtain ⟨rfl, rfl, rfl, rfl, rfl⟩ := hp
  exact hev.meets { m with control := { m.control with exp } }

theorem apply (hap : Applies ap) :
    Simulates (pure (.apply proc)) w ⟨e, k, u, a, σ⟩ k σ (ap e proc a) := by
  rintro hσ m rfl hp
  simp only [position, Position.mk.injEq] at hp
  obtain ⟨rfl, rfl, rfl, rfl, rfl⟩ := hp
  exact hap proc m

theorem applyTo (hap : Applies ap) :
    Simulates (applyTo args proc) w ⟨e, k, u, a, σ⟩ k σ (ap e proc args) :=
  setArgl_bind (f := fun _ => pure (.apply proc)) (apply hap)

-- An evaluation for a step that follows it. What is left of the position is the stack.
theorem evaluateFor (hev : Evaluates ev) (hn : k' ≠ .halt)
    (h : ∀ v w e a, Simulates (step k') w ⟨e, k', v, a, τ⟩ k σ (f' v)) :
    Simulates (evaluateFor k' exp) w ⟨e, k₀, u, a, τ⟩ k σ (ev e exp >>= f') := by
  rintro hσ m rfl hp
  simp only [position, Position.mk.injEq] at hp
  obtain ⟨rfl, rfl, rfl, rfl, rfl⟩ := hp
  have hr := hev.meets { m with control := { m.control with exp, cont := k' } }
  show Meets .eval _ k σ ((ev m.control.env exp >>= f') m.world)
  simp only [Bind.bind, EStateM.bind]
  change Meets _ _ k' m.control.stack.slots (ev m.control.env exp m.world) at hr
  generalize ev m.control.env exp m.world = r at hr
  rcases r with ⟨v, w⟩ | ⟨fault | _ | _, w⟩
  · obtain ⟨m', hr, rfl, hk, hs, rfl⟩ := hr
    refine .after hr <| Leads.meets hn <|
      h _ _ m'.control.env m'.control.argl hσ m'.countStep rfl ?_
    rw [position, ← hk, ← hs]
    rfl
  · obtain ⟨k₁, m₁, m₂, hr, hs, hw, hc⟩ := hr
    exact ⟨k₁, m₁, m₂, hr, hs, hw, hc.trans hσ⟩
  all_goals trivial

end Simulates

end Machine
end StepLisp
