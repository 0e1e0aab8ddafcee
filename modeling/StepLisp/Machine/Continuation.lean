import StepLisp.Machine.Basic

namespace StepLisp.Machine

def capture : Run Value := do
  let c := (← get).control
  Store.allocContinuation { step := c.cont, stack := c.stack, env := c.env, special := false }

def callWithContinuation : Run Step := do
  let args ← argl
  if args.isNil then
    deliver (← capture)
  else
    match ← query (·.uncons? args) with
    | some (proc, .nil) =>
      if proc.isProcedure then
        let k ← capture
        applyTo (← Store.cons k .nil) proc
      else malformed (.captureProcedure (← write proc))
    | _ => malformed .captureArguments

-- The value that a continuation is applied to: none counts as the empty list.
def resumeArgument : Run Value := do
  let args ← argl
  match ← query (·.uncons? args) with
  | none => return .nil
  | some (v, .nil) => return v
  | some _ => malformed .resumeArguments

def resume (id : ContinuationId) : Run Step := do
  let v ← resumeArgument
  let k ← queryOrFail (·.continuation id)
  Control.resume k.stack
  setEnv k.env
  setCont k.step
  deliver v

end StepLisp.Machine
