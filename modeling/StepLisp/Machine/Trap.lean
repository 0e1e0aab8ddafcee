import StepLisp.Machine.Basic

namespace StepLisp.Machine

def trap : Run Step := do
  let exp ← single (← argl)
  let c := (← get).control
  Control.push (.trap ⟨c.env, c.cont⟩)
  evaluateFor .trapDone exp

def resumeAt (c : Checkpoint) : Run Unit := do
  setEnv c.env
  setCont c.cont

def trapDone : Run Step := do
  resumeAt (← Control.popCheckpoint)
  deliver (← Store.cons .truth (← val))

-- The trapped expression has failed: its fault's text comes paired with the empty list. A fault
-- that no trap catches goes on.
def recover (fault : Fault) : Run Step := do
  if fault.isCatchable then
    match ← Control.unwind with
    | some checkpoint =>
      resumeAt checkpoint
      let text ← Store.allocString fault.message
      deliver (← Store.cons .nil text)
    | none => throw fault
  else throw fault

end StepLisp.Machine
