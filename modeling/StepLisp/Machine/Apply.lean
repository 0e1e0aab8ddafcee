import StepLisp.Machine.Continuation
import StepLisp.Machine.Form
import StepLisp.Machine.Primitive
import StepLisp.Machine.Template
import StepLisp.Machine.Trap

namespace StepLisp

def Builtin.run : Builtin → Run Step
  | «begin» | «do» => Machine.sequence
  | «if» => Machine.conditional
  | cond => Machine.cond
  | define => Machine.defineForm
  | set => Machine.assignment
  | lambda => Machine.lambda
  | special => Machine.specialForm
  | quote => Machine.quote
  | quasiquote => Machine.quasiquote
  | trap => Machine.trap
  | ffi => Machine.foreignForm
  | cons => Machine.cons
  | car => Machine.car
  | cdr => Machine.cdr
  | setCar => Machine.setCar
  | setCdr => Machine.setCdr
  | isNull => Machine.isNull
  | isAtom => Machine.isAtom
  | eq => Machine.eq
  | equal => Machine.equal
  | add => Machine.binary .add .add
  | sub => Machine.minus
  | mul => Machine.binary .mul .mul
  | div => Machine.binary .div .div
  | lt => Machine.lt
  | nand => Machine.nand
  | apply => Machine.apply
  | callcc | callWithCurrentContinuation => Machine.callWithContinuation
  | eval => Machine.evalValue
  | error => Machine.error
  | exit => Machine.exit
  | print => Machine.print
  | toText => Machine.toText
  | range => Machine.range
  | type => Machine.type

namespace Machine

-- Binds parameters to arguments in a frame. After more pairs than there are cells, parameters and
-- arguments both run in a cycle.
def bindParamsFrom (frame : FrameId) : Nat → Value → Value → Run Unit
  | _, .nil, args => do
    if args.isNil then pure () else malformed (.tooManyArguments (← write args))
  | _, .symbol rest, args => Store.define frame rest args
  | 0, .pair _, _ => throw .endless
  | fuel + 1, .pair id, args => do
    let param ← query (·.car id)
    let more ← query (·.cdr id)
    match param with
    | .symbol x =>
      if x = .ampersand then
        match ← query (·.uncons? more) with
        | some (.symbol rest, .nil) => Store.define frame rest args
        | _ => malformed .restNotOneSymbol
      else
        match ← query (·.uncons? args) with
        | some (arg, args) =>
          Store.define frame x arg
          bindParamsFrom frame fuel more args
        | none => malformed .tooFewArguments
    | _ => malformed .parameterNotSymbol
  | _, _, _ => malformed .badTemplate

def bindParams (frame : FrameId) (params args : Value) : Run Unit := do
  bindParamsFrom frame (← query (·.totalCells)) params args

-- Evaluates a closure's body in a new frame, within the closure's own environment or, if it takes
-- its operands unevaluated, within its caller's.
def applyClosure (id : ClosureId) : Run Step := do
  let c ← queryOrFail (·.closure id)
  let here ← env
  let frame ← Store.allocFrame (some (if c.special then here else c.env))
  bindParams frame c.params (← argl)
  setEnv frame
  evaluate c.body

def applyProc : Value → Run Step
  | .builtin id =>
    match Builtin.ofId? id with
    | some b => b.run
    | none => throw (.internal (.unknownBuiltin id))
  | .closure id => applyClosure id
  | .continuation id => resume id
  | other => do malformed (.notProcedure (← write other))

def step : Step → Run Step
  | .halt => return .halt
  | .eval => eval
  | .apply proc => applyProc proc
  | .evalOperator => evalOperator
  | .evalOperand => evalOperand
  | .beginNext => beginNext
  | .ifBranch => ifBranch
  | .condNext => condNext
  | .defineBind => defineBind
  | .setBind => setBind
  | .specialBind => specialBind
  | .quasi => expand
  | .quasiRewrap => rewrap
  | .quasiNext => templateNext
  | .quasiSpliced => templateSpliced
  | .quasiFinish => templateFinish
  | .trapDone => trapDone

end Machine
end StepLisp
