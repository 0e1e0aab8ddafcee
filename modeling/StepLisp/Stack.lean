import StepLisp.Value

namespace StepLisp

-- What the machine does next. A step is also what a computation returns to when it is done.
inductive Step
  | halt
  | eval
  | apply (proc : Value)
  | evalOperator
  | evalOperand
  | beginNext
  | ifBranch
  | condNext
  | defineBind
  | setBind
  | specialBind
  | quasi
  | quasiRewrap
  | quasiNext
  | quasiSpliced
  | quasiFinish
  | trapDone
  deriving Repr, Inhabited

def Step.value? : Step → Option Value
  | apply proc => some proc
  | _ => none

structure GroupId where
  index : Nat
  deriving DecidableEq, Repr

-- Whom evaluated operands are for.
inductive Callee
  | proc (v : Value)
  | foreign (group : GroupId) (function : Symbol)
  deriving Repr

-- Where a trap resumes.
structure Checkpoint where
  env : FrameId
  cont : Step
  deriving Repr

inductive Slot
  | value (v : Value)
  | env (e : FrameId)
  | step (s : Step)
  | callee (c : Callee)
  | sentinel
  | trap (c : Checkpoint)
  deriving Repr

@[ext]
structure Stack where
  slots : List Slot
  depth : Nat
  depth_eq : depth = slots.length

namespace Stack

def empty : Stack := ⟨[], 0, rfl⟩

def push (s : Stack) (slot : Slot) : Stack :=
  ⟨slot :: s.slots, s.depth + 1, by simp [s.depth_eq]⟩

def ofSlots (slots : List Slot) : Stack :=
  ⟨slots, slots.length, rfl⟩

def pop? : Stack → Option (Slot × Stack)
  | ⟨[], _, _⟩ => none
  | ⟨slot :: rest, depth, h⟩ => some (slot, ⟨rest, depth - 1, by simp [h]⟩)

def top? (s : Stack) : Option Slot :=
  s.slots.head?

-- Drops slots up to and including the first checkpoint.
def unwindSlots : (slots : List Slot) → (depth : Nat) → depth = slots.length →
    Option (Checkpoint × Stack)
  | [], _, _ => none
  | .trap c :: rest, depth, h => some (c, ⟨rest, depth - 1, by simp [h]⟩)
  | _ :: rest, depth, h => unwindSlots rest (depth - 1) (by simp [h])

def unwind? (s : Stack) : Option (Checkpoint × Stack) :=
  unwindSlots s.slots s.depth s.depth_eq

end Stack
end StepLisp
