import StepLisp.Machine.Operand

namespace StepLisp.Machine

-- begin

def sequence : Run Step := do
  let body ← argl
  match ← query (·.uncons? body) with
  | none => if body.isNil then deliver .nil else malformed .beginBody
  | some (last, .nil) => evaluate last
  | some (first, rest) =>
    Control.save
    Control.push (.value rest)
    evaluateFor .beginNext first

def beginNext : Run Step := do
  let rest ← Control.popValue
  setEnv (← Control.peekEnv)
  match ← query (·.uncons? rest) with
  | some (last, .nil) =>
    Control.restore
    evaluate last
  | some (next, more) =>
    Control.push (.value more)
    evaluateFor .beginNext next
  | none => malformed .beginBody

-- if and cond

def testFor (test consequent alternate : Value) : Run Step := do
  Control.save
  Control.push (.value consequent)
  Control.push (.value alternate)
  evaluateFor .ifBranch test

def conditional : Run Step := do
  let args ← argl
  match ← query (·.toList? args) with
  | some [test, consequent] => testFor test consequent .nil
  | some [test, consequent, alternate] => testFor test consequent alternate
  | _ => malformed .ifOperands

def ifBranch : Run Step := do
  let alternate ← Control.popValue
  let consequent ← Control.popValue
  Control.restore
  evaluate (if (← val).isNil then alternate else consequent)

def testClause (clauses : Value) : Run Step := do
  match ← query (·.uncons? clauses) with
  | some (clause, rest) =>
    match ← query (·.uncons? clause) with
    | some (test, body) =>
      setEnv (← Control.peekEnv)
      Control.push (.value rest)
      Control.push (.value body)
      evaluateFor .condNext test
    | none => malformed (.condClause (← write clause))
  | none =>
    if clauses.isNil then
      Control.restore
      deliver .nil
    else malformed .condClauses

def cond : Run Step := do
  let clauses ← argl
  Control.save
  testClause clauses

def condNext : Run Step := do
  let body ← Control.popValue
  let rest ← Control.popValue
  if (← val).isNil then testClause rest
  else
    Control.restore
    match ← query (·.uncons? body) with
    | none => if body.isNil then proceed else malformed .condBody
    | some (only, .nil) => evaluate only
    | some _ => evaluate (← Store.cons (.symbol .beginForm) body)

-- lambda

def checkParamsFrom : Nat → Value → Run Unit
  | _, .nil => pure ()
  | _, .symbol _ => pure ()
  | fuel + 1, .pair id => do
    match ← query (·.car id) with
    | .symbol _ => checkParamsFrom fuel (← query (·.cdr id))
    | other => malformed (.parameter (← write other))
  | _, other => do malformed (.parameters (← write other))

def checkParams (params : Value) : Run Unit := do
  checkParamsFrom ((← query (·.totalCells)) + 1) params

def makeClosure (params body : Value) (special : Bool) : Run Value := do
  checkParams params
  let body ← match ← query (·.uncons? body) with
    | some (only, .nil) => pure only
    | some _ => Store.cons (.symbol .beginForm) body
    | none => malformed .emptyBody
  Store.allocClosure { params, body, env := ← env, special }

def lambda : Run Step := do
  let (params, body) ← atLeastTwo .lambda (← argl)
  deliver (← makeClosure params body false)

-- define, set! and special

def evaluateNamed (cont : Step) (target body : Value) : Run Step := do
  let exp ← single body
  let x ← symbolOperand target
  Control.save
  Control.push (.value (.symbol x))
  evaluateFor cont exp

-- A form that binds a procedure under its name, or whatever an expression delivers.
def definition (form : Builtin) (special : Bool) (cont : Step) : Run Step := do
  let (target, body) ← atLeastTwo form (← argl)
  match ← query (·.uncons? target) with
  | some (name, params) =>
    let x ← symbolOperand name
    define x (← makeClosure params body special)
    deliver .nil
  | none => evaluateNamed cont target body

def defineForm : Run Step :=
  definition .define false .defineBind

def specialForm : Run Step :=
  definition .special true .specialBind

def assignment : Run Step := do
  let (target, body) ← atLeastTwo .set (← argl)
  evaluateNamed .setBind target body

def popSymbol : Run Symbol := do
  match ← Control.popValue with
  | .symbol x => return x
  | _ => throw (.internal .savedSymbol)

def defineBind : Run Step := do
  let x ← popSymbol
  Control.restore
  define x (← val)
  deliver .nil

def setBind : Run Step := do
  let x ← popSymbol
  Control.restore
  Image.assign (← env) x (← val)
  deliver .nil

def rawOperands (proc : Value) : Run Value := do
  match Builtin.value? Builtin.apply.name with
  | none => throw (.internal (.other "apply is not registered"))
  | some apply =>
    let operands := Value.symbol (← Image.intern "operands")
    let body ← Store.list [apply, proc, operands]
    Store.allocClosure { params := operands, body, env := ← env, special := true }

-- Makes a procedure take its operands unevaluated. Primitives stay as they are and are wrapped.
def makeSpecial : Value → Run Value
  | .closure id => do
    Store.markClosure id
    return .closure id
  | .continuation id => do
    Store.markContinuation id
    return .continuation id
  | .builtin id => do
    if ← queryOrFail (isSpecial · (.builtin id)) then return .builtin id
    else rawOperands (.builtin id)
  | other => do malformed (.specialProcedure (← write other))

def specialBind : Run Step := do
  let x ← popSymbol
  Control.restore
  define x (← makeSpecial (← val))
  deliver .nil

-- quote and ffi

def quote : Run Step := do
  deliver (← single (← argl))

def foreignForm : Run Step := do
  let (group, rest) ← atLeastTwo .ffi (← argl)
  match ← query (·.uncons? rest) with
  | none => malformed .foreignOperands
  | some (function, args) =>
    let group ← symbolOperand group
    let function ← symbolOperand function
    let name := (← get).image.symbols.name group
    match Group.id? name with
    | none => throw (.missing (.group name))
    | some id =>
      Control.save
      beginOperands (.foreign id function) args

end StepLisp.Machine
