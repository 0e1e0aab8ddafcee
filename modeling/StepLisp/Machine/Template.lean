import StepLisp.Machine.Operand

namespace StepLisp.Machine

def quasiquote : Run Step := do
  let exp ← single (← argl)
  modify fun m => { m with control := { m.control with exp } }
  return .quasi

def expandFor (cont : Step) (exp : Value) : Run Step := fun m =>
  .ok .quasi { m with control := { m.control with exp, cont } }

def templateElement (form : Value) : Run Step := do
  match ← query (·.uncons? form) with
  | none => throw (.internal .templateAtom)
  | some (element, rest) =>
    if rest.isListLike then
      Control.push (.value rest)
      Control.save
      match ← query (·.uncons? element) with
      | some (.symbol x, operands) =>
        if x = .unquoteSplicing then
          evaluateFor .quasiSpliced (← single operands)
        else expandFor .quasiNext element
      | _ => expandFor .quasiNext element
    else mistyped (.notList (← write rest))

-- Templates that are not marked in any way are expanded element by element.
def expandList (form : Value) : Run Step := do
  Control.save
  Control.push .sentinel
  templateElement form

def expand : Run Step := do
  let form := (← get).control.exp
  match ← query (·.uncons? form) with
  | none => deliver form
  | some (.symbol x, operands) =>
    if x = .quasiquote then
      Control.save
      expandFor .quasiRewrap (← single operands)
    else if x = .unquote then
      evaluate (← single operands)
    else if x = .unquoteSplicing then
      discard (single operands)
      malformed .straySplice
    else expandList form
  | some _ => expandList form

def rewrap : Run Step := do
  Control.restore
  let inner ← Store.cons (← val) .nil
  deliver (← Store.cons (.symbol .quasiquote) inner)

def templateRest (rest : Value) : Run Step :=
  if rest.isNil then return .quasiFinish else templateElement rest

def templateNext : Run Step := do
  Control.restore
  let rest ← Control.popValue
  Control.push (.value (← val))
  templateRest rest

def templateSpliced : Run Step := do
  Control.restore
  let rest ← Control.popValue
  let list ← val
  match ← query (·.toList? list) with
  | none => mistyped (.notList (← write list))
  | some items =>
    for item in items do
      Control.push (.value item)
    templateRest rest

def templateFinish : Run Step := do
  let list ← gather .templateSlot (← depth) .nil
  Control.restore
  deliver list

end StepLisp.Machine
