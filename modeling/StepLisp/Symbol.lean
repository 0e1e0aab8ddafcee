import Std.Data.TreeMap
import StepLisp.Value

namespace StepLisp

structure SymbolTable where
  names : Array String
  symbols : Std.TreeMap String Symbol
  agree {name : String} {x : Symbol} : symbols[name]? = some x ↔ names[x.id]? = some name

namespace SymbolTable

def size (t : SymbolTable) : Nat :=
  t.names.size

def lookup? (t : SymbolTable) (name : String) : Option Symbol :=
  t.symbols[name]?

def name (t : SymbolTable) (s : Symbol) : String :=
  t.names.getD s.id ""

theorem agree_push {t : SymbolTable} {name name' : String} {x : Symbol}
    (hn : t.symbols[name]? = none) :
    (t.symbols.insert name ⟨t.names.size⟩)[name']? = some x ↔
      (t.names.push name)[x.id]? = some name' := by
  rw [Std.TreeMap.getElem?_insert, Array.getElem?_push]
  by_cases hx : x.id = t.names.size
  case pos =>
    by_cases he : name = name'
    case pos => simp [he, ← hx]
    case neg =>
      have hs : t.symbols[name']? ≠ some x := fun h => by simpa [hx] using t.agree.mp h
      simp [he, hx, hs]
  case neg =>
    by_cases he : name = name'
    case pos =>
      have hs : t.names[x.id]? ≠ some name := fun h => by simp [t.agree.mpr h] at hn
      have hx' : (⟨t.names.size⟩ : Symbol) ≠ x := fun h => hx (congrArg Symbol.id h).symm
      simp [← he, hx, hx', hs]
    case neg => simp [he, hx, t.agree]

def intern (t : SymbolTable) (name : String) : Symbol × SymbolTable :=
  match h : t.symbols[name]? with
  | some x => (x, t)
  | none => (⟨t.names.size⟩,
    ⟨t.names.push name, t.symbols.insert name ⟨t.names.size⟩, agree_push h⟩)

def internAll (t : SymbolTable) (names : List String) : SymbolTable :=
  names.foldl (fun t name => (t.intern name).2) t

def empty : SymbolTable where
  names := #[]
  symbols := ∅
  agree := by simp

def base : SymbolTable :=
  empty.internAll ["quote", "quasiquote", "unquote", "unquote-splicing", "begin", "&", "()", "#t",
    "pair", "symbol", "integer", "float", "string", "lambda", "continuation", "primitive",
    "opaque"]

end SymbolTable

-- The symbols of the base table.
namespace Symbol

def quote : Symbol := ⟨0⟩
def quasiquote : Symbol := ⟨1⟩
def unquote : Symbol := ⟨2⟩
def unquoteSplicing : Symbol := ⟨3⟩
def beginForm : Symbol := ⟨4⟩
def ampersand : Symbol := ⟨5⟩

-- Names of types.
def emptyType : Symbol := ⟨6⟩
def truthType : Symbol := ⟨7⟩
def pairType : Symbol := ⟨8⟩
def symbolType : Symbol := ⟨9⟩
def integerType : Symbol := ⟨10⟩
def floatType : Symbol := ⟨11⟩
def stringType : Symbol := ⟨12⟩
def lambdaType : Symbol := ⟨13⟩
def continuationType : Symbol := ⟨14⟩
def primitiveType : Symbol := ⟨15⟩
def opaqueType : Symbol := ⟨16⟩

end Symbol

def Value.type : Value → Symbol
  | nil => .emptyType
  | truth => .truthType
  | pair _ => .pairType
  | symbol _ => .symbolType
  | int _ => .integerType
  | float _ => .floatType
  | string _ => .stringType
  | closure _ => .lambdaType
  | continuation _ => .continuationType
  | builtin _ => .primitiveType
  | foreign _ => .opaqueType

end StepLisp
