import StepLisp.Machine.Foreign

namespace StepLisp.Machine

def gather (unexpected : Slot → Internal) : Nat → Value → Run Value
  | 0, _ => throw (.internal .underflow)
  | fuel + 1, list => do
    match ← Control.pop with
    | .value v => gather unexpected fuel (← Store.cons v list)
    | .sentinel => return list
    | other => throw (.internal (unexpected other))

def depth : Run Nat := fun m =>
  .ok m.control.stack.depth m

def finishOperands : Run Step := do
  let args ← gather .operandSlot (← depth) .nil
  let callee ← Control.popCallee
  Control.restore
  setArgl args
  match callee with
  | .proc proc => return .apply proc
  | .foreign group function => deliver (← callForeign group function args)

-- Evaluates the operands that are left. A chain of more pairs than there are cells is a cycle.
def operandsFrom : Nat → Value → Run Step
  | _, .nil => finishOperands
  | 0, .pair _ => throw .endless
  | fuel + 1, .pair id => do
    let arg ← query (·.car id)
    let rest ← query (·.cdr id)
    match arg with
    | .pair _ =>
      Control.push (.value rest)
      Control.push (.env (← env))
      evaluateFor .evalOperand arg
    | .symbol x =>
      Control.push (.value (← lookup x))
      operandsFrom fuel rest
    | atom =>
      Control.push (.value atom)
      operandsFrom fuel rest
  | _, _ => malformed .improperOperands

def operands (args : Value) : Run Step := do
  operandsFrom ((← query (·.totalCells)) + 1) args

def beginOperands (callee : Callee) (args : Value) : Run Step := do
  Control.push (.callee callee)
  Control.push .sentinel
  operands args

def evalOperand : Run Step := do
  setEnv (← Control.popEnv)
  let rest ← Control.popValue
  Control.push (.value (← val))
  operands rest

def evalOperator : Run Step := do
  let proc ← val
  let args ← Control.popValue
  setEnv (← Control.peekEnv)
  if ← queryOrFail (isSpecial · proc) then
    Control.restore
    applyTo args proc
  else
    beginOperands (.proc proc) args

def eval : Run Step := do
  match (← get).control.exp with
  | .symbol x => deliver (← lookup x)
  | .pair id =>
    let operator ← query (·.car id)
    let args ← query (·.cdr id)
    Control.save
    Control.push (.value args)
    match operator with
    | .symbol x =>
      setVal (← lookup x)
      evalOperator
    | _ => evaluateFor .evalOperator operator
  | atom => deliver atom

end StepLisp.Machine
