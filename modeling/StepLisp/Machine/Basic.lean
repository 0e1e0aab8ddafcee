import StepLisp.Clock
import StepLisp.Control
import StepLisp.Output
import StepLisp.Printer
import StepLisp.Random
import StepLisp.Settings

namespace StepLisp

structure Machine where
  image : Image
  control : Control
  global : FrameId
  settings : Settings
  generator : Generator
  clock : Clock
  output : Output := {}
  steps : Nat := 0

abbrev Run := Act Machine

namespace Machine

variable {α : Type}

@[inline]
def onImage (x : Act Image α) : Run α := fun m =>
  match x m.image with
  | .ok a image => .ok a { m with image }
  | .error fault image => .error fault { m with image }

@[inline]
def onControl (x : Act Control α) : Run α := fun m =>
  match x m.control with
  | .ok a control => .ok a { m with control }
  | .error fault control => .error fault { m with control }

@[inline]
instance : MonadLift (Act Image) Run where
  monadLift := onImage

@[inline]
instance : MonadLift (Act Control) Run where
  monadLift := onControl

def store (m : Machine) : Store :=
  m.image.store

-- A read is not inlined, so that it is done before the store is next changed in place.

@[noinline]
def query (f : Store → α) : Run α := fun m =>
  .ok (f m.image.store) m

@[noinline]
def queryOrFail (f : Store → Except Fault α) : Run α := fun m =>
  match f m.image.store with
  | .ok a => .ok a m
  | .error fault => .error fault m

def write (v : Value) : Run String := fun m =>
  .ok (m.image.write v) m

def display (v : Value) : Run String := fun m =>
  .ok (m.image.display v) m

def malformed (cause : Malformed) : Run α :=
  throw (.malformed cause)

def mistyped (cause : Mistyped) : Run α :=
  throw (.mistyped cause)

-- Registers

@[inline]
def argl : Run Value := fun m =>
  .ok m.control.argl m

@[inline]
def val : Run Value := fun m =>
  .ok m.control.val m

@[inline]
def env : Run FrameId := fun m =>
  .ok m.control.env m

@[inline]
def setEnv (env : FrameId) : Run Unit := fun m =>
  .ok () { m with control := { m.control with env } }

@[inline]
def setCont (cont : Step) : Run Unit := fun m =>
  .ok () { m with control := { m.control with cont } }

@[inline]
def setVal (val : Value) : Run Unit := fun m =>
  .ok () { m with control := { m.control with val } }

@[inline]
def setArgl (argl : Value) : Run Unit := fun m =>
  .ok () { m with control := { m.control with argl } }

-- Ways for a transition to end

def deliver (val : Value) : Run Step := fun m =>
  .ok m.control.cont { m with control := { m.control with val } }

def proceed : Run Step := fun m =>
  .ok m.control.cont m

def evaluate (exp : Value) : Run Step := fun m =>
  .ok .eval { m with control := { m.control with exp } }

def evaluateFor (cont : Step) (exp : Value) : Run Step := fun m =>
  .ok .eval { m with control := { m.control with exp, cont } }

def applyTo (argl : Value) (proc : Value) : Run Step := fun m =>
  .ok (.apply proc) { m with control := { m.control with argl } }

-- Scopes and operands

def lookup (x : Symbol) : Run Value := fun m =>
  match m.image.store.lookup? m.control.env x with
  | .ok (some v) => .ok v m
  | .ok none => .error (.unbound (m.image.symbols.name x)) m
  | .error fault => .error fault m

def define (x : Symbol) (v : Value) : Run Unit := do
  Store.define (← env) x v

def single (list : Value) : Run Value := do
  match ← query (·.uncons? list) with
  | some (only, .nil) => return only
  | _ => malformed (.notSingle (← write list))

def symbolOperand (v : Value) : Run Symbol := do
  match v with
  | .symbol x => return x
  | _ => malformed (.notSymbol (← write v))

def atLeastTwo (form : Builtin) (args : Value) : Run (Value × Value) := do
  match ← query (·.uncons? args) with
  | some (first, .pair rest) => return (first, .pair rest)
  | _ => malformed (.atLeastTwo form.name)

def isSpecial (s : Store) : Value → Except Fault Bool
  | .builtin id =>
    match Builtin.ofId? id with
    | some b => .ok b.isForm
    | none => .error (.internal (.unknownBuiltin id))
  | .closure id => return (← s.closure id).special
  | .continuation id => return (← s.continuation id).special
  | _ => .ok false

end Machine
end StepLisp
