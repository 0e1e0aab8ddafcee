import StepLisp.Fault
import StepLisp.Symbol

namespace StepLisp

structure Control where
  exp : Value := .nil
  env : FrameId
  cont : Step := .halt
  val : Value := .nil
  argl : Value := .nil
  stack : Stack := .empty
  highWater : Nat := 0

namespace Control

def start (exp : Value) (env : FrameId) : Control where
  exp := exp
  env := env

@[inline]
def pushed (c : Control) (slot : Slot) : Control :=
  let stack := c.stack.push slot
  { c with stack, highWater := max c.highWater stack.depth }

@[inline]
def push (slot : Slot) : Act Control Unit := fun c =>
  .ok () (c.pushed slot)

def save : Act Control Unit := fun c =>
  .ok () ((c.pushed (.step c.cont)).pushed (.env c.env))

def pop : Act Control Slot := fun c =>
  match c.stack.pop? with
  | some (slot, stack) => .ok slot { c with stack }
  | none => .error (.internal .underflow) c

def popValue : Act Control Value := do
  match ← pop with
  | .value v => return v
  | other => throw (.internal (.slot .value other))

def popEnv : Act Control FrameId := do
  match ← pop with
  | .env e => return e
  | other => throw (.internal (.slot .environment other))

def popStep : Act Control Step := do
  match ← pop with
  | .step s => return s
  | other => throw (.internal (.slot .step other))

def popCallee : Act Control Callee := do
  match ← pop with
  | .callee c => return c
  | other => throw (.internal (.slot .callee other))

def popCheckpoint : Act Control Checkpoint := do
  match ← pop with
  | .trap c => return c
  | other => throw (.internal (.slot .checkpoint other))

def restore : Act Control Unit := do
  let env ← popEnv
  modify ({ · with env })
  let cont ← popStep
  modify ({ · with cont })

def peekEnv : Act Control FrameId := fun c =>
  match c.stack.top? with
  | some (.env e) => .ok e c
  | some other => .error (.internal (.slot .environment other)) c
  | none => .error (.internal .underflow) c

def resume (stack : Stack) : Act Control Unit := fun c =>
  .ok () { c with stack, highWater := max c.highWater stack.depth }

-- Drops the stack down to the innermost checkpoint, if there is one.
def unwind : Act Control (Option Checkpoint) := fun c =>
  match c.stack.unwind? with
  | some (checkpoint, stack) => .ok (some checkpoint) { c with stack }
  | none => .ok none c

end Control
end StepLisp
