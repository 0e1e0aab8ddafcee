import StepLisp.Value

namespace StepLisp

inductive Builtin
  -- forms
  | «begin» | «do» | «if» | cond | define | set | lambda | special | quote | quasiquote | trap | ffi
  -- pairs
  | cons | car | cdr | setCar | setCdr
  -- predicates
  | isNull | isAtom | eq | equal
  -- arithmetic
  | add | sub | mul | div | lt | nand
  -- control
  | apply | callcc | callWithCurrentContinuation | eval | error | exit
  -- others
  | print | toText | range | type
  deriving DecidableEq, Repr

namespace Builtin

def all : Array Builtin := #[
  «begin», «do», «if», cond, define, set, lambda, special, quote, quasiquote, trap, ffi,
  cons, car, cdr, setCar, setCdr,
  isNull, isAtom, eq, equal,
  add, sub, mul, div, lt, nand,
  apply, callcc, callWithCurrentContinuation, eval, error, exit,
  print, toText, range, type]

def name : Builtin → String
  | «begin» => "begin"
  | «do» => "do"
  | «if» => "if"
  | cond => "cond"
  | define => "define"
  | set => "set!"
  | lambda => "lambda"
  | special => "special"
  | quote => "quote"
  | quasiquote => "quasiquote"
  | trap => "trap"
  | ffi => "ffi"
  | cons => "cons"
  | car => "car"
  | cdr => "cdr"
  | setCar => "set-car!"
  | setCdr => "set-cdr!"
  | isNull => "null?"
  | isAtom => "atom?"
  | eq => "eq?"
  | equal => "equal?"
  | add => "+"
  | sub => "-"
  | mul => "*"
  | div => "/"
  | lt => "<"
  | nand => "nand"
  | apply => "apply"
  | callcc => "call/cc"
  | callWithCurrentContinuation => "call-with-current-continuation"
  | eval => "eval"
  | error => "error"
  | exit => "exit"
  | print => "print"
  | toText => "obj>string"
  | range => "range"
  | type => "type"

def isForm : Builtin → Bool
  | «begin» | «do» | «if» | cond | define | set | lambda | special | quote | quasiquote | trap
  | ffi => true
  | _ => false

def ofId? (id : BuiltinId) : Option Builtin :=
  all[id.index]?

def value? (name : String) : Option Value :=
  (all.findIdx? (·.name == name)).map fun i => .builtin ⟨i⟩

end Builtin
end StepLisp
