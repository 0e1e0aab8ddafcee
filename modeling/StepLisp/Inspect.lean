import StepLisp.Decimal.Shortest
import StepLisp.Stack

namespace StepLisp

def Handle.inspect (name : String) {kind : Kind} (h : Handle kind) : String :=
  s!"{name}({h.index})"

def FrameId.inspect (e : FrameId) : String :=
  Handle.inspect "EnvId" e

def PairId.inspect (p : PairId) : String :=
  Handle.inspect "PairId" p

def Symbol.inspect (s : Symbol) : String :=
  s!"SymbolId({s.id})"

def GroupId.inspect (g : GroupId) : String :=
  s!"GroupId({g.index})"

def Value.inspect : Value → String
  | nil => "Nil"
  | truth => "True"
  | int n => s!"Int({n.toInt})"
  | float x => s!"Float({(Binary64.ofFloat x).toText})"
  | string id => Handle.inspect "Str" id
  | symbol name => s!"Sym({name.id})"
  | pair id => Handle.inspect "Pair" id
  | builtin id => s!"Prim({id.index})"
  | closure id => Handle.inspect "Closure" id
  | continuation id => Handle.inspect "Cont" id
  | foreign id => Handle.inspect "Opaque" id

def Step.inspect : Step → String
  | halt => "Halt"
  | eval => "Eval"
  | apply proc => s!"Apply({proc.inspect})"
  | evalOperator => "EvalOperator"
  | evalOperand => "EvalOperand"
  | beginNext => "BeginNext"
  | ifBranch => "IfBranch"
  | condNext => "CondNext"
  | defineBind => "DefineBind"
  | setBind => "SetBind"
  | specialBind => "SpecialBind"
  | quasi => "Quasi"
  | quasiRewrap => "QuasiRewrap"
  | quasiNext => "QuasiNext"
  | quasiSpliced => "QuasiSpliced"
  | quasiFinish => "QuasiFinish"
  | trapDone => "TrapDone"

def Callee.inspect : Callee → String
  | proc v => s!"Proc({v.inspect})"
  | foreign group function =>
    s!"Foreign \x7b group: {group.inspect}, func: {function.inspect} \x7d"

def Checkpoint.inspect (c : Checkpoint) : String :=
  s!"Checkpoint \x7b env: {FrameId.inspect c.env}, cont: {c.cont.inspect} \x7d"

def Slot.inspect : Slot → String
  | value v => s!"Value({v.inspect})"
  | env e => s!"Env({FrameId.inspect e})"
  | step s => s!"Step({s.inspect})"
  | callee c => s!"Callee({c.inspect})"
  | sentinel => "Sentinel"
  | trap c => s!"Trap({c.inspect})"

end StepLisp
