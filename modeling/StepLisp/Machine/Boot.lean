import StepLisp.Machine.Execute
import StepLisp.Prelude

namespace StepLisp

def Image.new (capacity threshold : Nat) : Image where
  store := .new capacity threshold
  symbols := SymbolTable.base.internAll (Group.all.toList.map Group.name)

-- What a machine is told by its surroundings.
structure Host where
  random : Randomness
  clock : Clock
  deriving Inhabited

namespace Machine

-- Binds builtins from the given number on.
def install (env : FrameId) : Nat → List Builtin → Act Image Unit
  | _, [] => pure ()
  | i, b :: rest => do
    let x ← Image.intern b.name
    Store.define env x (.builtin ⟨i⟩)
    install env (i + 1) rest

-- The global frame.
def globals : Act Image FrameId := do
  let global ← Store.allocFrame none
  install global 0 Builtin.all.toList
  return global

-- The machine for a global frame in an image, if there is one.
def around (settings : Settings) (host : Host) (output : Output) :
    EStateM.Result Fault Image FrameId → Except Fault Machine
  | .ok global image => .ok {
      image, global, settings, output
      control := { env := global }
      generator := .ofSeed? host.random settings.seed
      clock := host.clock
    }
  | .error fault _ => .error fault

def bare (settings : Settings) (host : Host) (output : Output) : Except Fault Machine :=
  around settings host output (globals (.new settings.heapCells settings.gcThreshold))

def load (text : String) (m : Machine) : Except Fault Machine :=
  match evalText text m with
  | .ok _ m => .ok m
  | .error fault _ => .error fault

def new (settings : Settings) (host : Host) (output : Output) : Except Fault Machine :=
  bare settings host output >>= load preludeText

end Machine
end StepLisp
