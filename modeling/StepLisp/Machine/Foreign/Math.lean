import StepLisp.Machine.Basic

namespace StepLisp.Machine

-- What foreign functions ask of their arguments

def foreignArity (function : String) (expected : Nat) (args : List Value) : Run Unit :=
  if args.length = expected then pure ()
  else mistyped (.foreignArity function expected args.length)

def numberArg (function : String) (v : Value) : Run Float :=
  match v.number? with
  | some x => pure x
  | none => mistyped (.foreignNumber function)

def integerArg (function : String) (v : Value) : Run Int64 :=
  match v.int? with
  | some n => pure n
  | none => mistyped (.foreignInteger function)

def listArg (function : String) (v : Value) : Run (List Value) := do
  match ← query (·.toList? v) with
  | some items => return items
  | none => mistyped (.foreignList function)

def noFunction {α : Type} (group function : String) : Run α :=
  throw (.missing (.function function group))

namespace Math

-- The length of the hypotenuse: the root of the sum of squares, corrected by the error that the
-- squares leave. Expects `0 ≤ y ≤ x` with squares in range.
def hypotCore (x y : Float) : Float :=
  let h := Float.sqrt (x * x + y * y)
  if h ≤ 2.0 * y then
    let d := h - y
    let t₁ := x * (2.0 * d - x)
    let t₂ := (d - 2.0 * (x - y)) * d
    h - (t₁ + t₂) / (2.0 * h)
  else
    let d := h - x
    let t₁ := 2.0 * d * (x - 2.0 * y)
    let t₂ := (4.0 * d - y) * y + d * d
    h - (t₁ + t₂) / (2.0 * h)

-- A power of two.
def power (e : Int) : Float :=
  Float.ofBits (UInt64.ofNat ((e + 1023).toNat * 0x10000000000000))

-- The length of the hypotenuse of a right triangle. Sides that are very long or very short are
-- scaled, and a side that is too short to matter is added.
def hypot (x y : Float) : Float :=
  if x.isInf || y.isInf then 1.0 / 0.0
  else if x.isNaN || y.isNaN then 0.0 / 0.0
  else
    let x := x.abs
    let y := y.abs
    let (x, y) := if x < y then (y, x) else (x, y)
    let negligible := y ≤ x * power (-54)
    if power 511 < x then
      if negligible then x + y
      else hypotCore (x * power (-600)) (y * power (-600)) / power (-600)
    else if y < power (-459) then
      if y / power (-54) ≤ x then x + y
      else hypotCore (x / power (-600)) (y / power (-600)) * power (-600)
    else if negligible then x + y
    else hypotCore x y

def unary? : String → Option (Float → Float)
  | "sqrt" => some Float.sqrt
  | "sin" => some Float.sin
  | "cos" => some Float.cos
  | "tan" => some Float.tan
  | "asin" => some Float.asin
  | "acos" => some Float.acos
  | "atan" => some Float.atan
  | "exp" => some Float.exp
  | "log10" => some Float.log10
  | "fabs" => some Float.abs
  | _ => none

def binary? : String → Option (Float → Float → Float)
  | "atan2" => some Float.atan2
  | "pow" => some Float.pow
  | "hypot" => some hypot
  | _ => none

def rounding? : String → Option (Binary64 → Option Int)
  | "floor" => some Binary64.floor?
  | "ceil" => some Binary64.ceil?
  | "trunc" => some Binary64.trunc?
  | _ => none

def domainError {α : Type} : Run α :=
  throw (.arithmetic .domain)

def checked (inputs : List Float) (x : Float) : Run Value :=
  if x.isNaN && !inputs.any Float.isNaN then domainError else pure (.float x)

def log (x : Float) (base : Option Float) : Run Value :=
  if x ≤ 0.0 then domainError
  else
    match base with
    | none => pure (.float x.log)
    | some b =>
      if b ≤ 0.0 || b == 1.0 then domainError else pure (.float (x.log / b.log))

def rounded (round : Binary64 → Option Int) (x : Float) : Run Value :=
  let d := Binary64.ofFloat x
  match (round d).bind Word.int64? with
  | some n => pure (.int n)
  | none => throw (.arithmetic (.notInteger d.toText))

def call (function : String) (args : List Value) : Run Value := do
  if let some f := unary? function then
    foreignArity function 1 args
    let x ← numberArg function (args.getD 0 .nil)
    if function = "log10" && x ≤ 0.0 then domainError
    else checked [x] (f x)
  else if let some f := binary? function then
    foreignArity function 2 args
    let x ← numberArg function (args.getD 0 .nil)
    let y ← numberArg function (args.getD 1 .nil)
    checked [x, y] (f x y)
  else if let some round := rounding? function then
    foreignArity function 1 args
    match args.getD 0 .nil with
    | .int n => return .int n
    | v => rounded round (← numberArg function v)
  else if function = "log" then
    match args with
    | [x] => log (← numberArg function x) none
    | [x, b] => do
      let x ← numberArg function x
      let b ← numberArg function b
      log x (some b)
    | _ => mistyped .logArity
  else noFunction "math" function

end Math
end StepLisp.Machine
