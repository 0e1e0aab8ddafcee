import StepLisp.Store.Basic

namespace StepLisp

namespace Frame

def get? (f : Frame) (x : Symbol) : Option Value :=
  f.bindings.lookup x

-- Replaces the binding of `x`, or adds one at the end.
def bind (x : Symbol) (v : Value) : List (Symbol × Value) → List (Symbol × Value)
  | [] => [(x, v)]
  | (y, w) :: rest => if y = x then (x, v) :: rest else (y, w) :: bind x v rest

def define (f : Frame) (x : Symbol) (v : Value) : Frame :=
  { f with bindings := bind x v f.bindings }

def values (f : Frame) : List Value :=
  f.bindings.map Prod.snd

end Frame

namespace Store

-- The longest chain of distinct frames has as many links as there are frames.
def chainBound (s : Store) : Nat :=
  s.frames.entries.size + 1

def lookupFrom (s : Store) (x : Symbol) : Nat → FrameId → Except Fault (Option Value)
  | 0, _ => .error .endless
  | fuel + 1, env => do
    let f ← s.frame env
    match f.get? x with
    | some v => return some v
    | none =>
      match f.parent with
      | some parent => lookupFrom s x fuel parent
      | none => return none

def lookup? (s : Store) (env : FrameId) (x : Symbol) : Except Fault (Option Value) :=
  s.lookupFrom x s.chainBound env

def define (env : FrameId) (x : Symbol) (v : Value) : Act Store Unit := fun s =>
  match s.frame env with
  | .ok _ => .ok () { s with frames := s.frames.modify env.index (·.define x v) }
  | .error fault => .error fault s

def binderFrom (s : Store) (x : Symbol) : Nat → FrameId → Except Fault (Option FrameId)
  | 0, _ => .error .endless
  | fuel + 1, env => do
    let f ← s.frame env
    match f.get? x with
    | some _ => return some env
    | none =>
      match f.parent with
      | some parent => binderFrom s x fuel parent
      | none => return none

def binder? (s : Store) (env : FrameId) (x : Symbol) : Except Fault (Option FrameId) :=
  s.binderFrom x s.chainBound env

def ancestor (s : Store) : FrameId → Nat → Except Fault FrameId
  | env, 0 => .ok env
  | env, n + 1 => do
    let f ← s.frame env
    match f.parent with
    | some parent => ancestor s parent n
    | none => .error .noFrame

end Store
end StepLisp
