import StepLisp.Equality
import StepLisp.Machine.Operand

namespace StepLisp.Machine

-- Arguments

def arguments (b : Builtin) : Run (List Value) := do
  let args ← argl
  match ← query (·.toList? args) with
  | some vs => return vs
  | none => malformed (.improperArguments b.name)

def wrongArity {α : Type} (b : Builtin) (expected : Nat) (vs : List Value) : Run α :=
  malformed (.arity b.name expected vs.length)

def oneArgument (b : Builtin) : Run Value := do
  match ← arguments b with
  | [v] => return v
  | vs => wrongArity b 1 vs

def twoArguments (b : Builtin) : Run (Value × Value) := do
  match ← arguments b with
  | [v, w] => return (v, w)
  | vs => wrongArity b 2 vs

def threeArguments (b : Builtin) : Run (Value × Value × Value) := do
  match ← arguments b with
  | [u, v, w] => return (u, v, w)
  | vs => wrongArity b 3 vs

-- Pairs and predicates

def cons : Run Step := do
  let (a, b) ← twoArguments .cons
  deliver (← Store.cons a b)

def car : Run Step := do
  let v ← oneArgument .car
  deliver (← queryOrFail (·.carOf v))

def cdr : Run Step := do
  let v ← oneArgument .cdr
  deliver (← queryOrFail (·.cdrOf v))

def pairArgument (b : Builtin) (v : Value) : Run PairId := do
  match v with
  | .pair id => return id
  | _ => mistyped (.notPair b.name (← write v))

def update (f : Store → Store) : Run Unit := fun m =>
  .ok () { m with image := { m.image with store := f m.image.store } }

def setCar : Run Step := do
  let (pair, v) ← twoArguments .setCar
  let id ← pairArgument .setCar pair
  update (·.setCar id v)
  deliver .nil

def setCdr : Run Step := do
  let (pair, v) ← twoArguments .setCdr
  let id ← pairArgument .setCdr pair
  update (·.setCdr id v)
  deliver .nil

def isNull : Run Step := do
  deliver (.ofBool (← oneArgument .isNull).isNil)

def isAtom : Run Step := do
  deliver (.ofBool (← oneArgument .isAtom).isAtom)

def eq : Run Step := do
  let (a, b) ← twoArguments .eq
  deliver (.ofBool (a == b))

def equal : Run Step := do
  let (a, b) ← twoArguments .equal
  deliver (.ofBool (← queryOrFail (·.equal a b)))

-- Arithmetic

def exact (b : Builtin) : Option Int64 → Except Arithmetic Int64
  | some n => .ok n
  | none => .error (.overflow b.name)

-- Division that rounds down. Where something remains and the signs differ, the quotient that is
-- rounded towards zero is one too large.
def floorDiv (x y : Int64) : Except Arithmetic Int64 := do
  if y = 0 then throw .divisionByZero
  let q ← exact .div (Word.quotient? x y)
  return if x % y != 0 && (x < 0) != (y < 0) then q - 1 else q

structure Operation where
  ints : Int64 → Int64 → Except Arithmetic Int64
  floats : Float → Float → Except Arithmetic Float

namespace Operation

def add : Operation where
  ints x y := exact .add (Word.add? x y)
  floats x y := .ok (x + y)

def sub : Operation where
  ints x y := exact .sub (Word.sub? x y)
  floats x y := .ok (x - y)

def mul : Operation where
  ints x y := exact .mul (Word.mul? x y)
  floats x y := .ok (x * y)

def div : Operation where
  ints := floorDiv
  floats x y := if y == 0.0 then .error .divisionByZero else .ok (x / y)

end Operation

def arithmetic {α : Type} : Except Arithmetic α → Run α
  | .ok a => pure a
  | .error cause => throw (.arithmetic cause)

-- Integers stay integers; as soon as one number is a double, both are.
def numeric (b : Builtin) (op : Operation) (v w : Value) : Run Value := do
  match v, w with
  | .int x, .int y => return .int (← arithmetic (op.ints x y))
  | _, _ =>
    match v.number?, w.number? with
    | some x, some y => return .float (← arithmetic (op.floats x y))
    | _, _ => mistyped (.notNumbers b.name (← write v) (← write w))

def binary (b : Builtin) (op : Operation) : Run Step := do
  let (v, w) ← twoArguments b
  deliver (← numeric b op v w)

-- The elements of the argument list, none if it is not a proper list.
def looseArguments : Run (List Value) := do
  let args ← argl
  return (← query (·.toList? args)).getD []

def minus : Run Step := do
  match ← looseArguments with
  | [.float x] => deliver (.float (-x))
  | [v] => deliver (← numeric .sub .sub (.int 0) v)
  | [v, w] => deliver (← numeric .sub .sub v w)
  | _ => malformed (.oneOrTwo Builtin.sub.name)

def less (v w : Value) : Run Bool := do
  match v, w with
  | .int x, .int y => return x < y
  | .string a, .string b =>
    let a ← queryOrFail (·.string a)
    let b ← queryOrFail (·.string b)
    return a < b
  | _, _ =>
    match v.number?, w.number? with
    | some x, some y => return x < y
    | _, _ => mistyped (.notComparable (← write v) (← write w))

def lt : Run Step := do
  let (v, w) ← twoArguments .lt
  deliver (.ofBool (← less v w))

def nand : Run Step := do
  let (v, w) ← twoArguments .nand
  match v, w with
  | .int x, .int y => deliver (.int (~~~(x &&& y)))
  | _, _ => mistyped (.notIntegers (← write v) (← write w))

-- Control

def apply : Run Step := do
  let (proc, list) ← twoArguments .apply
  if !proc.isProcedure then malformed (.notProcedure (← write proc))
  else if !list.isListLike then mistyped (.applyList (← write list))
  else applyTo list proc

def expression : Value → Run Value
  | .string id => do
    let text ← queryOrFail (·.string id)
    return (← Image.readAll text).getLastD .nil
  | v => pure v

def evaluateUp (v : Value) (frames : Nat) : Run Step := do
  let exp ← expression v
  let here ← env
  setEnv (← queryOrFail (·.ancestor here frames))
  evaluate exp

def evalValue : Run Step := do
  match ← looseArguments with
  | [v] => evaluateUp v 0
  | [v, .int n] =>
    if 0 ≤ n.toInt then evaluateUp v n.toInt.toNat
    else mistyped (.frameCount (← write (.int n)))
  | [_, w] => mistyped (.frameCount (← write w))
  | _ => malformed (.oneOrTwo Builtin.eval.name)

def error : Run Step := do
  throw (.user (← display (← oneArgument .error)))

def exit : Run Step := do
  match ← oneArgument .exit with
  | .int n =>
    match Word.int32? n.toInt with
    | some status => throw (.exit status none)
    | none => mistyped (.exitStatus n)
  | v => throw (.exit 1 (some (← display v)))

-- Others

def emit (text : String) : Run Unit := fun m =>
  match m.output.write text with
  | (true, output) => .ok () { m with output }
  | (false, output) => .error (.internal (.output "sink full")) { m with output }

def print : Run Step := do
  let texts ← (← arguments .print).mapM display
  emit (" ".intercalate texts ++ "\n")
  deliver .nil

def toText : Run Step := do
  deliver (← Store.allocString (← write (← oneArgument .toText)))

def precedes (stop step term : Int64) : Bool :=
  (0 < step && term < stop) || (step < 0 && stop < term)

-- How far a term is from the end.
def distance (stop step term : Int64) : Nat :=
  (if 0 < step then stop.toInt - term.toInt else term.toInt - stop.toInt).toNat

theorem precedes_iff {stop step term : Int64} : precedes stop step term ↔
    (0 < step.toInt ∧ term.toInt < stop.toInt) ∨ (step.toInt < 0 ∧ stop.toInt < term.toInt) := by
  simp [precedes, Int64.lt_iff_toInt_lt]

theorem distance_lt {stop step term next : Int64} (hn : Word.add? term step = some next)
    (h : precedes stop step next) : distance stop step next < distance stop step term := by
  have hadd := Word.toInt_of_int64? hn
  have hp := precedes_iff.mp h
  simp only [distance, Int64.lt_iff_toInt_lt, Int64.toInt_zero]
  split <;> omega

-- Appends terms of a progression after a list's last cell, which holds the term before. They come
-- to an end before the first that does not precede `stop` or is no word.
def extend (stop step term : Int64) (last : PairId) : Act Store Unit :=
  match _ : Word.add? term step with
  | some next =>
    if _ : precedes stop step next then do
      let id ← Store.alloc (.int next) .nil
      modify (·.setCdr last (.pair id))
      extend stop step next id
    else pure ()
  | none => pure ()
termination_by distance stop step term
decreasing_by exact distance_lt ‹_› ‹_›

section Extend

variable {stop step term next : Int64} {last : PairId}

theorem extend_of_precedes (hn : Word.add? term step = some next) (h : precedes stop step next) :
    extend stop step term last = (do
      let id ← Store.alloc (.int next) .nil
      modify (·.setCdr last (.pair id))
      extend stop step next id) := by
  rw [extend]
  split
  case h_1 he =>
    cases hn.symm.trans he
    exact dif_pos h
  case h_2 he => cases hn.symm.trans he

theorem extend_of_last (h : ∀ next ∈ Word.add? term step, precedes stop step next = false) :
    extend stop step term last = pure () := by
  rw [extend]
  split
  case h_1 he => exact dif_neg (by simp [h _ he])
  case h_2 => rfl

-- The terms in the order in which they come, from the last one back.
@[elab_as_elim]
theorem terms_induction (stop step : Int64) {motive : Int64 → Prop} (term : Int64)
    (more : ∀ term next, Word.add? term step = some next → precedes stop step next → motive next →
      motive term)
    (last : ∀ term, (∀ next ∈ Word.add? term step, precedes stop step next = false) → motive term) :
    motive term := by
  induction hd : distance stop step term using Nat.strongRecOn generalizing term
  case ind d hi =>
    subst hd
    by_cases h : ∃ next, Word.add? term step = some next ∧ precedes stop step next
    · have ⟨next, hn, hp⟩ := h
      exact more term next hn hp (hi _ (distance_lt hn hp) next rfl)
    · exact last term fun next hn => by simpa using fun hp => h ⟨next, hn, hp⟩

end Extend

def progression (start stop step : Int64) : Act Store Value := do
  if precedes stop step start then
    let id ← Store.alloc (.int start) .nil
    extend stop step start id
    return .pair id
  else return .nil

def range : Run Step := do
  match ← threeArguments .range with
  | (.int start, .int stop, .int step) =>
    if step = 0 then mistyped .rangeStep
    else deliver (← progression start stop step)
  | _ => mistyped .rangeBounds

def type : Run Step := do
  deliver (.symbol (← oneArgument .type).type)

end StepLisp.Machine
