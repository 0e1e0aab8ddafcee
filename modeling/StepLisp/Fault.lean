import StepLisp.Inspect

namespace StepLisp

-- Forms and calls of the wrong shape.
inductive Malformed
  | improperOperands
  | notProcedure (shown : String)
  | tooManyArguments (shown : String)
  | tooFewArguments
  | restNotOneSymbol
  | parameterNotSymbol
  | badTemplate
  | beginBody
  | ifOperands
  | condClauses
  | condClause (shown : String)
  | condBody
  | specialProcedure (shown : String)
  | emptyBody
  | parameter (shown : String)
  | parameters (shown : String)
  | foreignOperands
  | atLeastTwo (form : String)
  | notSingle (shown : String)
  | notSymbol (shown : String)
  | straySplice
  | captureArguments
  | captureProcedure (shown : String)
  | resumeArguments
  | improperArguments (name : String)
  | arity (name : String) (expected got : Nat)
  | oneOrTwo (name : String)
  deriving DecidableEq, Repr

-- Values of the wrong type.
inductive Mistyped
  | carOfAtom
  | cdrOfAtom
  | notList (shown : String)
  | notPair (name shown : String)
  | notNumbers (name left right : String)
  | notComparable (left right : String)
  | notIntegers (left right : String)
  | applyList (shown : String)
  | frameCount (shown : String)
  | exitStatus (n : Int64)
  | rangeBounds
  | rangeStep
  | foreignArity (function : String) (expected got : Nat)
  | foreignNumber (function : String)
  | foreignInteger (function : String)
  | foreignList (function : String)
  | logArity
  | gmtimeArity
  | emptyRandint (low high : Int64)
  | emptyChoice
  | notInstant
  | timeFields (got : Nat)
  deriving DecidableEq, Repr

-- Names that no foreign group provides.
inductive Missing
  | group (name : String)
  | function (name owner : String)
  deriving DecidableEq, Repr

-- Numbers outside the domain or range of an operation.
inductive Arithmetic
  | overflow (name : String)
  | divisionByZero
  | domain
  | notInteger (shown : String)
  | negativeSleep
  | sleepRange
  | timestampRange
  | invalidDate
  deriving DecidableEq, Repr

-- Texts that are not data.
inductive Unreadable
  | unexpectedEnd
  | tooDeep
  | unexpectedClose
  | unterminatedList
  | leadingDot
  | afterTail
  | unterminatedString
  | unterminatedEscape
  | emptyInput
  | positionOutOfRange
  deriving DecidableEq, Repr

-- What a typed pop was looking for.
inductive Expected
  | value | environment | step | callee | checkpoint
  deriving DecidableEq, Repr

-- States that the machine does not reach by itself.
inductive Internal
  | underflow
  | slot (expected : Expected) (found : Slot)
  | operandSlot (found : Slot)
  | templateSlot (found : Slot)
  | savedSymbol
  | templateAtom
  | dangling (kind : Kind) (index : Nat)
  | unknownBuiltin (id : BuiltinId)
  | unknownGroup (id : GroupId)
  | output (reason : String)
  | other (text : String)
  deriving Repr

inductive Fault
  | malformed (cause : Malformed)
  | unbound (name : String)
  | noFrame
  | mistyped (cause : Mistyped)
  | missing (cause : Missing)
  | user (text : String)
  | arithmetic (cause : Arithmetic)
  | unreadable (cause : Unreadable)
  | heapExhausted (cells : Nat)
  | stepLimit (budget : Nat)
  | exit (status : Int32) (text : Option String)
  | internal (cause : Internal)
  -- A walk around a cycle that never comes to an end.
  | endless
  deriving Repr

def Malformed.message : Malformed → String
  | improperOperands => "improper argument list"
  | notProcedure shown => s!"expected procedure, got {shown}"
  | tooManyArguments shown => s!"too many args: {shown}"
  | tooFewArguments => "too few args"
  | restNotOneSymbol => "expected one symbol after &"
  | parameterNotSymbol => "parameter must be a symbol"
  | badTemplate => "bad parameter template"
  | beginBody => "begin: improper body"
  | ifOperands => "if expects 2 or 3 operands"
  | condClauses => "cond: improper clause list"
  | condClause shown => s!"cond: expected a clause, got {shown}"
  | condBody => "cond: improper clause body"
  | specialProcedure shown => s!"special: expected a procedure, got {shown}"
  | emptyBody => "empty body"
  | parameter shown => s!"parameter must be a symbol, got {shown}"
  | parameters shown => s!"bad parameter template {shown}"
  | foreignOperands => "ffi expects a group and a function name"
  | atLeastTwo form => s!"{form} takes at least 2 operands"
  | notSingle shown => s!"expected a single operand, got {shown}"
  | notSymbol shown => s!"expected symbol, got {shown}"
  | straySplice => "cannot use unquote-splicing here"
  | captureArguments => "call/cc expects at most one argument"
  | captureProcedure shown => s!"call/cc: expected procedure, got {shown}"
  | resumeArguments => "continuation expects at most one argument"
  | improperArguments name => s!"{name}: improper argument list"
  | arity name expected got =>
    let plural := if expected = 1 then "" else "s"
    s!"{name} expects {expected} argument{plural}, got {got}"
  | oneOrTwo name => s!"{name} expects one or two arguments"

def Mistyped.message : Mistyped → String
  | carOfAtom => "car of non-pair"
  | cdrOfAtom => "cdr of non-pair"
  | notList shown => s!"expected list, got {shown}"
  | notPair name shown => s!"{name}: expected pair, got {shown}"
  | notNumbers name left right => s!"{name} expects numbers, got {left} and {right}"
  | notComparable left right => s!"cannot compare {left} and {right}"
  | notIntegers left right => s!"expected integers, got {left} and {right}"
  | applyList shown => s!"apply: expected list, got {shown}"
  | frameCount shown => s!"eval: expected a frame count, got {shown}"
  | exitStatus n => s!"exit status {n.toInt} is out of range"
  | rangeBounds => "range expects three integers"
  | rangeStep => "range step must not be zero"
  | foreignArity function expected got => s!"{function} takes {expected} argument(s), got {got}"
  | foreignNumber function => s!"{function}: expected a number"
  | foreignInteger function => s!"{function}: expected an integer"
  | foreignList function => s!"{function}: expected a list"
  | logArity => "log takes 1 or 2 arguments"
  | gmtimeArity => "gmtime takes 0 or 1 arguments"
  | emptyRandint low high => s!"empty range for randint ({low.toInt}, {high.toInt})"
  | emptyChoice => "cannot choose from an empty list"
  | notInstant => "elapsed: expected an instant"
  | timeFields got => s!"timegm: expected a 9-element list, got {got} elements"

def Missing.message : Missing → String
  | group name => s!"no ffi group {name}"
  | function name owner => s!"function {name} does not exist in {owner}"

def Arithmetic.message : Arithmetic → String
  | overflow name => s!"integer overflow in {name}"
  | divisionByZero => "division by zero"
  | domain => "math domain error"
  | notInteger shown => s!"cannot convert {shown} to integer"
  | negativeSleep => "sleep length must be non-negative"
  | sleepRange => "sleep length is out of range"
  | timestampRange => "timestamp out of range"
  | invalidDate => "timegm: invalid date"

def Unreadable.message : Unreadable → String
  | unexpectedEnd => "unexpected EOF"
  | tooDeep => "nesting too deep"
  | unexpectedClose => "unexpected ')'"
  | unterminatedList => "unterminated list"
  | leadingDot => "dot with no preceding element"
  | afterTail => "expected ')' after dotted tail"
  | unterminatedString => "unterminated string"
  | unterminatedEscape => "unterminated escape"
  | emptyInput => "empty input"
  | positionOutOfRange => "position out of range"

def Expected.message : Expected → String
  | value => "value"
  | environment => "environment"
  | step => "step"
  | callee => "callee"
  | checkpoint => "trap checkpoint"

def Kind.message : Kind → String
  | pair => "pair"
  | string => "string"
  | frame => "frame"
  | closure => "closure"
  | continuation => "continuation"
  | foreign => "opaque"

def Internal.message : Internal → String
  | underflow => "auxiliary stack underflow"
  | slot expected found =>
    s!"auxiliary stack: expected {expected.message}, found {found.inspect}"
  | operandSlot found => s!"operand accumulator: unexpected {found.inspect}"
  | templateSlot found => s!"quasiquote accumulator: unexpected {found.inspect}"
  | savedSymbol => "expected a saved symbol"
  | templateAtom => "quasiquote setup on a non-pair"
  | dangling kind index => s!"dangling {kind.message} handle {index}"
  | unknownBuiltin id => s!"unknown primitive id {id.index}"
  | unknownGroup id => s!"unknown foreign group id {id.index}"
  | output reason => s!"print: {reason}"
  | other text => text

def Fault.message : Fault → String
  | malformed cause => s!"malformed-form: {cause.message}"
  | unbound name => s!"unbound-variable: {name}"
  | noFrame => "unbound-variable: no frame available"
  | mistyped cause => s!"type-mismatch: {cause.message}"
  | missing cause => s!"name-lookup: {cause.message}"
  | user text => s!"user-error: {text}"
  | arithmetic cause => s!"arithmetic-error: {cause.message}"
  | unreadable cause => s!"read-error: {cause.message}"
  | heapExhausted cells => s!"heap-exhausted: {cells} cells in use"
  | stepLimit budget => s!"step-limit: exceeded {budget} steps"
  | exit status _ => s!"exit {status.toInt}"
  | internal cause => s!"internal-error: {cause.message}"
  | endless => "endless-walk: a cycle was entered that has no end"

def Fault.isCatchable : Fault → Bool
  | exit .. | stepLimit _ | endless => false
  | _ => true

-- An action on a state, which may fail. The state reached is kept in either case.
abbrev Act (σ : Type) := EStateM Fault σ

namespace Act

variable {σ α : Type}

@[inline]
def ofExcept : Except Fault α → Act σ α
  | .ok a => pure a
  | .error fault => throw fault

end Act
end StepLisp
