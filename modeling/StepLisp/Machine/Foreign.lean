import StepLisp.Machine.Foreign.Chance
import StepLisp.Machine.Foreign.Time

namespace StepLisp

inductive Group
  | math | random | time
  deriving DecidableEq, Repr

namespace Group

def all : Array Group := #[math, random, time]

def name : Group → String
  | math => "math"
  | random => "random"
  | time => "time"

def ofId? (id : GroupId) : Option Group :=
  all[id.index]?

def id? (name : String) : Option GroupId :=
  (all.findIdx? (·.name == name)).map GroupId.mk

def call : Group → String → List Value → Run Value
  | math => Machine.Math.call
  | random => Machine.Chance.call
  | time => Machine.Time.call

end Group

namespace Machine

def group (id : GroupId) : Run Group :=
  match Group.ofId? id with
  | some g => pure g
  | none => throw (.internal (.unknownGroup id))

def callForeign (id : GroupId) (function : Symbol) (argl : Value) : Run Value := do
  match ← query (·.toList? argl) with
  | none => malformed (.improperArguments "ffi")
  | some args =>
    let g ← group id
    let m ← get
    g.call (m.image.symbols.name function) args

end Machine
end StepLisp
