import StepLisp.Machine.Apply
import StepLisp.Store.Collect

namespace StepLisp

def Control.roots (c : Control) : List Ref :=
  c.exp.refs ++ c.val.refs ++ c.argl.refs ++ c.cont.refs ++ c.env.ref ::
    c.stack.slots.flatMap Slot.refs

namespace Machine

def roots (m : Machine) (next : Step) : List Ref :=
  next.refs ++ m.global.ref :: m.control.roots

def collectBefore (next : Step) (m : Machine) : Machine :=
  if m.image.store.isCollectionDue then
    let roots := m.roots next
    { m with image := { m.image with store := (m.image.store.collect roots).2 } }
  else m

def countStep (m : Machine) : Machine :=
  { m with steps := m.steps + 1 }

def advance (next : Step) : Run Step := fun m =>
  match step next (m.countStep.collectBefore next) with
  | .ok next m => .ok next m
  | .error fault m => recover fault m

def runFor : Nat → Step → Run Value
  | _, .halt => val
  | 0, _ => fun m =>
    let m := m.countStep
    .error (.stepLimit m.settings.maxSteps) m
  | budget + 1, next => fun m =>
    match advance next m with
    | .ok next m => runFor budget next m
    | .error fault m => .error fault m

def execute (exp : Value) (env : FrameId) : Run Value := fun m =>
  let m := { m with control := .start exp env, steps := 0 }
  runFor m.settings.maxSteps .eval m

def executeGlobal (exp : Value) : Run Value := do
  execute exp (← get).global

-- Reads and executes data in turn; the last value counts.
def evalData : List (Datum × Nat) → Value → Run Value
  | [], result => pure result
  | (d, _) :: rest, _ => do evalData rest (← executeGlobal (← Image.build d))

-- Executes all the forms of a text one after the other. The forms before a fault keep their
-- effects.
def evalText (text : String) : Run Value := do
  let contents := Reader.walk text.toList
  let result ← evalData contents.data .nil
  match contents.defect with
  | none => return result
  | some defect => Image.reject defect

def read (text : String) : Run Value :=
  Image.read text

def defineGlobal (name : String) (v : Value) : Run Unit := do
  let x ← Image.intern name
  Store.define (← get).global x v

def globalValue? (m : Machine) (name : String) : Option Value :=
  match m.image.symbols.lookup? name with
  | none => none
  | some x =>
    match m.image.store.lookup? m.global x with
    | .ok v => v
    | .error _ => none

end Machine
end StepLisp
