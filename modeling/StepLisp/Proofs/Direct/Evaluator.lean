import StepLisp.Machine.Apply

namespace StepLisp

-- A machine without its control state: objects, names and what is around them.
structure World where
  image : Image
  global : FrameId
  settings : Settings
  generator : Generator
  clock : Clock
  output : Output

def Machine.world (m : Machine) : World where
  image := m.image
  global := m.global
  settings := m.settings
  generator := m.generator
  clock := m.clock
  output := m.output

def World.machine (w : World) (control : Control) (steps : Nat) : Machine where
  image := w.image
  control := control
  global := w.global
  settings := w.settings
  generator := w.generator
  clock := w.clock
  output := w.output
  steps := steps

-- Why an evaluation comes to no value.
inductive Interruption
  | fault (fault : Fault)
  | unfinished
  | beyond

abbrev Direct := EStateM Interruption World

namespace Direct

open Machine (single symbolOperand atLeastTwo malformed mistyped write lookup define makeClosure
  makeSpecial isSpecial queryOrFail twoArguments looseArguments expression bindParams val)

variable {α : Type}

-- What an action does that sees no more of the control state than an environment and arguments.
def native (env : FrameId) (argl : Value) (x : Run α) : Direct α := fun w =>
  match x (w.machine { env, argl } 0) with
  | .ok a m => .ok a m.world
  | .error fault m => .error (.fault fault) m.world

def within (env : FrameId) (x : Run α) : Direct α :=
  native env .nil x

def read (f : Store → α) : Direct α := fun w =>
  .ok (f w.image.store) w

def fail (fault : Fault) : Direct α :=
  throw (.fault fault)

-- Forms, by what evaluates expressions and what applies procedures

variable (ev : FrameId → Value → Direct Value) (ap : FrameId → Value → Value → Direct Value)

def operands : Nat → FrameId → Value → Direct (List Value)
  | 0, _, _ => throw .unfinished
  | _ + 1, _, .nil => return []
  | fuel + 1, env, .pair id => do
    let arg ← read (·.car id)
    let rest ← read (·.cdr id)
    let v ← ev env arg
    let vs ← operands fuel env rest
    return v :: vs
  | _ + 1, _, _ => fail (.malformed .improperOperands)

-- Applies a procedure to operands, which it takes as they are or evaluated.
def call (fuel : Nat) (env : FrameId) (proc args : Value) : Direct Value := do
  if ← within env (queryOrFail (isSpecial · proc)) then
    ap env proc args
  else
    let vs ← operands ev fuel env args
    let list ← within env (Store.list vs)
    ap env proc list

def sequence : Nat → FrameId → Value → Direct Value
  | 0, _, _ => throw .unfinished
  | fuel + 1, env, body => do
    match ← read (·.uncons? body) with
    | none => if body.isNil then return .nil else fail (.malformed .beginBody)
    | some (last, .nil) => ev env last
    | some (first, rest) =>
      let _ ← ev env first
      sequence fuel env rest

def branch (env : FrameId) (test consequent alternate : Value) : Direct Value := do
  let v ← ev env test
  ev env (if v.isNil then alternate else consequent)

def conditional (env : FrameId) (args : Value) : Direct Value := do
  match ← read (·.toList? args) with
  | some [test, consequent] => branch ev env test consequent .nil
  | some [test, consequent, alternate] => branch ev env test consequent alternate
  | _ => fail (.malformed .ifOperands)

-- The body of a clause whose test has delivered a value.
def clauseBody (env : FrameId) (v body : Value) : Direct Value := do
  match ← read (·.uncons? body) with
  | none => if body.isNil then return v else fail (.malformed .condBody)
  | some (only, .nil) => ev env only
  | some _ =>
    let form ← within env (Store.cons (.symbol .beginForm) body)
    ev env form

def clauses : Nat → FrameId → Value → Direct Value
  | 0, _, _ => throw .unfinished
  | fuel + 1, env, list => do
    match ← read (·.uncons? list) with
    | none => if list.isNil then return .nil else fail (.malformed .condClauses)
    | some (clause, rest) =>
      match ← read (·.uncons? clause) with
      | none => within env do malformed (.condClause (← write clause))
      | some (test, body) =>
        let v ← ev env test
        if v.isNil then clauses fuel env rest else clauseBody ev env v body

-- Evaluates an expression and does something with a name and its value.
def named (bind : Symbol → Value → Run Unit) (env : FrameId) (target body : Value) :
    Direct Value := do
  let exp ← within env (single body)
  let x ← within env (symbolOperand target)
  let v ← ev env exp
  within env (bind x v)
  return .nil

def definition (form : Builtin) (special : Bool) (bind : Symbol → Value → Run Unit)
    (env : FrameId) (args : Value) : Direct Value := do
  let (target, body) ← within env (atLeastTwo form args)
  match ← read (·.uncons? target) with
  | some (name, params) =>
    let x ← within env (symbolOperand name)
    let proc ← within env (makeClosure params body special)
    within env (define x proc)
    return .nil
  | none => named ev bind env target body

def assignment (env : FrameId) (args : Value) : Direct Value := do
  let (target, body) ← within env (atLeastTwo .set args)
  named ev (fun x v => do Image.assign (← Machine.env) x v) env target body

def applyList (env : FrameId) (args : Value) : Direct Value := do
  let (proc, list) ← native env args (twoArguments .apply)
  if !proc.isProcedure then within env do malformed (.notProcedure (← write proc))
  else if !list.isListLike then within env do mistyped (.applyList (← write list))
  else ap env proc list

def evaluateUp (env : FrameId) (v : Value) (frames : Nat) : Direct Value := do
  let exp ← within env (expression v)
  let up ← within env (queryOrFail (·.ancestor env frames))
  ev up exp

def evalValue (env : FrameId) (args : Value) : Direct Value := do
  match ← native env args looseArguments with
  | [v] => evaluateUp ev env v 0
  | [v, .int n] =>
    if 0 ≤ n.toInt then evaluateUp ev env v n.toInt.toNat
    else within env do mistyped (.frameCount (← write (.int n)))
  | [_, w] => within env do mistyped (.frameCount (← write w))
  | _ => fail (.malformed (.oneOrTwo Builtin.eval.name))

def builtin (fuel : Nat) (env : FrameId) (args : Value) : Builtin → Direct Value
  | .begin | .do => sequence ev fuel env args
  | .if => conditional ev env args
  | .cond => clauses ev fuel env args
  | .define => definition ev .define false define env args
  | .special => definition ev .special true (fun x v => do define x (← makeSpecial v)) env args
  | .set => assignment ev env args
  | .apply => applyList ap env args
  | .eval => evalValue ev env args
  | .quasiquote | .trap | .ffi | .callcc | .callWithCurrentContinuation => throw .beyond
  | b => native env args do
    let _ ← b.run
    val

def closure (env : FrameId) (id : ClosureId) (args : Value) : Direct Value := do
  let c ← within env (queryOrFail (·.closure id))
  let frame ← within env (Store.allocFrame (some (if c.special then env else c.env)))
  within env (bindParams frame c.params args)
  ev frame c.body

-- Expressions and applications

mutual

def eval : Nat → FrameId → Value → Direct Value
  | 0, _, _ => throw .unfinished
  | _ + 1, env, .symbol x => within env (lookup x)
  | fuel + 1, env, .pair id => do
    let operator ← read (·.car id)
    let args ← read (·.cdr id)
    let proc ← eval fuel env operator
    call (eval fuel) (apply fuel) fuel env proc args
  | _ + 1, _, atom => return atom

def apply : Nat → FrameId → Value → Value → Direct Value
  | 0, _, _, _ => throw .unfinished
  | fuel + 1, env, .builtin id, args =>
    match Builtin.ofId? id with
    | some b => builtin (eval fuel) (apply fuel) fuel env args b
    | none => fail (.internal (.unknownBuiltin id))
  | fuel + 1, env, .closure id, args => closure (eval fuel) env id args
  | _ + 1, _, .continuation _, _ => throw .beyond
  | _ + 1, env, other, _ => within env do malformed (.notProcedure (← write other))

end

-- Fuel

-- `d'` comes to what `d` comes to, unless `d` is unfinished.
def Approximates (d d' : Direct α) : Prop :=
  ∀ w, (∃ w', d w = .error .unfinished w') ∨ d' w = d w

namespace Approximates

variable {β : Type} {d d' : Direct α} {f f' : α → Direct β}

theorem refl : Approximates d d :=
  fun _ => .inr rfl

theorem unfinished : Approximates (throw .unfinished) d :=
  fun w => .inl ⟨w, rfl⟩

theorem bind (hd : Approximates d d') (hf : ∀ a, Approximates (f a) (f' a)) :
    Approximates (d >>= f) (d' >>= f') := by
  intro w
  simp only [Bind.bind, EStateM.bind]
  rcases hd w with ⟨w', hw⟩ | hw
  case inl => exact .inl ⟨w', by rw [hw]⟩
  case inr =>
    rw [hw]
    cases d w
    case error => exact .inr rfl
    case ok a w' => exact hf a w'

theorem bind_right (hf : ∀ a, Approximates (f a) (f' a)) : Approximates (d >>= f) (d >>= f') :=
  refl.bind hf

end Approximates

section

variable {ev ev' : FrameId → Value → Direct Value} {ap ap' : FrameId → Value → Value → Direct Value}
variable {fuel fuel' : Nat} {env : FrameId} {v args : Value}
variable (hev : ∀ env exp, Approximates (ev env exp) (ev' env exp))
variable (hap : ∀ env proc args, Approximates (ap env proc args) (ap' env proc args))

include hev

theorem operands_mono (h : fuel ≤ fuel') :
    Approximates (operands ev fuel env args) (operands ev' fuel' env args) := by
  induction fuel generalizing fuel' args
  case zero => exact .unfinished
  case succ hf =>
    obtain _ | fuel' := fuel'
    · cases h
    cases args
    case pair =>
      exact .bind_right fun _ => .bind_right fun _ => (hev _ _).bind fun _ =>
        (hf <| Nat.le_of_succ_le_succ h).bind fun _ => .refl
    all_goals exact .refl

theorem sequence_mono (h : fuel ≤ fuel') :
    Approximates (sequence ev fuel env v) (sequence ev' fuel' env v) := by
  induction fuel generalizing fuel' v
  case zero => exact .unfinished
  case succ hf =>
    obtain _ | fuel' := fuel'
    · cases h
    refine .bind_right fun parts => ?_
    split
    case h_1 => exact .refl
    case h_2 => exact hev _ _
    case h_3 => exact (hev _ _).bind fun _ => hf <| Nat.le_of_succ_le_succ h

theorem branch_mono {test consequent alternate : Value} :
    Approximates (branch ev env test consequent alternate)
      (branch ev' env test consequent alternate) :=
  (hev _ _).bind fun _ => hev _ _

theorem conditional_mono : Approximates (conditional ev env args) (conditional ev' env args) := by
  refine .bind_right fun parts => ?_
  split
  case h_1 => exact branch_mono hev
  case h_2 => exact branch_mono hev
  case h_3 => exact .refl

theorem clauseBody_mono {body : Value} :
    Approximates (clauseBody ev env v body) (clauseBody ev' env v body) := by
  refine .bind_right fun parts => ?_
  split
  case h_1 => exact .refl
  case h_2 => exact hev _ _
  case h_3 => exact .bind_right fun _ => hev _ _

theorem clauses_mono (h : fuel ≤ fuel') :
    Approximates (clauses ev fuel env v) (clauses ev' fuel' env v) := by
  induction fuel generalizing fuel' v
  case zero => exact .unfinished
  case succ hf =>
    obtain _ | fuel' := fuel'
    · cases h
    refine .bind_right fun parts => ?_
    split
    case h_1 => exact .refl
    case h_2 =>
      refine .bind_right fun parts => ?_
      split
      case h_1 => exact .refl
      case h_2 =>
        refine (hev _ _).bind fun v => ?_
        split
        case isTrue => exact hf <| Nat.le_of_succ_le_succ h
        case isFalse => exact clauseBody_mono hev

theorem named_mono {bind : Symbol → Value → Run Unit} {target body : Value} :
    Approximates (named ev bind env target body) (named ev' bind env target body) :=
  .bind_right fun _ => .bind_right fun _ => (hev _ _).bind fun _ => .refl

theorem definition_mono {form : Builtin} {special : Bool} {bind : Symbol → Value → Run Unit} :
    Approximates (definition ev form special bind env args)
      (definition ev' form special bind env args) := by
  refine .bind_right fun (target, body) => .bind_right fun parts => ?_
  split
  case h_1 => exact .refl
  case h_2 => exact named_mono hev

theorem evaluateUp_mono {n : Nat} :
    Approximates (evaluateUp ev env v n) (evaluateUp ev' env v n) :=
  .bind_right fun _ => .bind_right fun _ => hev _ _

theorem evalValue_mono : Approximates (evalValue ev env args) (evalValue ev' env args) := by
  refine .bind_right fun vs => ?_
  split
  case h_1 => exact evaluateUp_mono hev
  case h_2 =>
    split
    case isTrue => exact evaluateUp_mono hev
    case isFalse => exact .refl
  all_goals exact .refl

theorem closure_mono {id : ClosureId} :
    Approximates (closure ev env id args) (closure ev' env id args) :=
  .bind_right fun _ => .bind_right fun _ => .bind_right fun _ => hev _ _

omit hev
include hap

theorem applyList_mono : Approximates (applyList ap env args) (applyList ap' env args) := by
  refine .bind_right fun (proc, list) => ?_
  dsimp only
  split
  case isTrue => exact .refl
  case isFalse =>
    split
    case isTrue => exact .refl
    case isFalse => exact hap _ _ _

include hev

theorem call_mono {proc : Value} (h : fuel ≤ fuel') :
    Approximates (call ev ap fuel env proc args) (call ev' ap' fuel' env proc args) := by
  refine .bind_right fun special => ?_
  split
  case isTrue => exact hap _ _ _
  case isFalse => exact (operands_mono hev h).bind fun _ => .bind_right fun _ => hap _ _ _

theorem builtin_mono {b : Builtin} (h : fuel ≤ fuel') :
    Approximates (builtin ev ap fuel env args b) (builtin ev' ap' fuel' env args b) := by
  cases b
  case «begin» | «do» => exact sequence_mono hev h
  case «if» => exact conditional_mono hev
  case cond => exact clauses_mono hev h
  case define | special => exact definition_mono hev
  case set => exact .bind_right fun _ => named_mono hev
  case apply => exact applyList_mono hap
  case eval => exact evalValue_mono hev
  all_goals exact .refl

end

theorem eval_apply_mono {fuel fuel' : Nat} (h : fuel ≤ fuel') :
    (∀ env exp, Approximates (eval fuel env exp) (eval fuel' env exp)) ∧
    ∀ env proc args, Approximates (apply fuel env proc args) (apply fuel' env proc args) := by
  induction fuel generalizing fuel'
  case zero => exact ⟨fun _ _ => .unfinished, fun _ _ _ => .unfinished⟩
  case succ hf =>
    obtain _ | fuel' := fuel'
    · cases h
    have hle := Nat.le_of_succ_le_succ h
    have ⟨hev, hap⟩ := hf hle
    constructor
    · intro env exp
      cases exp
      case pair =>
        exact .bind_right fun _ => .bind_right fun _ => (hev _ _).bind fun _ =>
          call_mono hev hap hle
      all_goals exact .refl
    · intro env proc args
      cases proc
      case builtin id =>
        simp only [apply]
        split
        case h_1 => exact builtin_mono hev hap hle
        case h_2 => exact .refl
      case closure => exact closure_mono hev
      all_goals exact .refl

-- The outcome of an evaluation that is finished is its outcome with any more fuel.
theorem eval_mono {fuel fuel' : Nat} {env : FrameId} {exp : Value} (h : fuel ≤ fuel') :
    Approximates (eval fuel env exp) (eval fuel' env exp) :=
  (eval_apply_mono h).left env exp

end Direct
end StepLisp
