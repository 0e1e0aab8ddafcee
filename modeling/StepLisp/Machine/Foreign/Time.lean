import StepLisp.Calendar
import StepLisp.Machine.Foreign.Math

namespace StepLisp.Machine.Time

def read {α : Type} (f : Clock → α × Clock) : Run α := fun m =>
  let (t, clock) := f m.clock
  .ok t { m with clock }

def now : Run Nat :=
  read (·.monotonic)

def sleepFor (nanoseconds : Nat) : Run Value := fun m =>
  .ok .nil { m with clock := m.clock.sleep nanoseconds }

-- Lets time pass. A length counts its seconds in sixty-four bits.
def sleep (seconds : Float) : Run Value :=
  if seconds < 0.0 then throw (.arithmetic .negativeSleep)
  else
    match (Binary64.ofFloat seconds).floor?.bind fun whole => Word.natural? whole.toNat with
    | none => throw (.arithmetic .sleepRange)
    | some _ => sleepFor ((Binary64.ofFloat (seconds * 1e9)).floor?.getD 0).toNat

def elapsed : Value → Run Value
  | .foreign id => do
    match ← queryOrFail (·.foreign id) with
    | .instant start => return .float (Clock.seconds ((← now) - start))
  | _ => mistyped .notInstant

-- The whole seconds of a number, brought into the range of sixty-four bits. What is not a number
-- counts as zero.
def wholeSeconds (x : Float) : Int :=
  match Binary64.ofFloat x with
  | .nan => 0
  | .infinite negative => if negative then -0x8000000000000000 else 0x7fffffffffffffff
  | d => Word.clamp64 (d.floor?.getD 0)

-- The nine fields of a moment: date, time of day, day of the week, day of the year, and no daylight
-- saving time.
def fields (m : Moment) : List Int :=
  [m.year, m.month, m.day, m.hour, m.minute, m.second, Calendar.weekday m, Calendar.yearDay m, 0]

def breakDown (t : Int) : Run Value := do
  match Calendar.moment? t with
  | some m => Store.list ((fields m).map fun n => .int (Int64.ofInt n))
  | none => throw (.arithmetic .timestampRange)

-- The timestamp of date and time fields. The year counts as a signed and the other fields as
-- unsigned words of thirty-two bits.
def timestamp? (year month day hour minute second : Int) : Option Int :=
  let word (n : Int) := (n % 0x100000000).toNat
  let year := Int.bmod year 0x100000000
  if Calendar.isValid year (word month) (word day) (word hour) (word minute) (word second) then
    some (Calendar.timestamp ⟨year, word month, word day, word hour, word minute, word second⟩)
  else none

def timegm (function : String) (items : List Value) : Run Value := do
  if items.length = 9 then
    match ← (items.take 6).mapM (integerArg function) with
    | [year, month, day, hour, minute, second] =>
      match timestamp? year.toInt month.toInt day.toInt hour.toInt minute.toInt second.toInt with
      | some t => return .int (Int64.ofInt t)
      | none => throw (.arithmetic .invalidDate)
    | _ => throw (.arithmetic .invalidDate)
  else mistyped (.timeFields items.length)

def call (function : String) (args : List Value) : Run Value := do
  let arg i := args.getD i .nil
  match function with
  | "time" =>
    foreignArity function 0 args
    return .float (Clock.wallSeconds (← read (·.wall)))
  | "monotonic" =>
    foreignArity function 0 args
    return .float (Clock.seconds (← now))
  | "sleep" =>
    foreignArity function 1 args
    sleep (← numberArg function (arg 0))
  | "instant" =>
    foreignArity function 0 args
    Store.allocForeign (.instant (← now))
  | "elapsed" =>
    foreignArity function 1 args
    elapsed (arg 0)
  | "gmtime" =>
    match args with
    | [] => breakDown ((← read (·.wall)) / 1000000000)
    | [t] => breakDown (wholeSeconds (← numberArg function t))
    | _ => mistyped .gmtimeArity
  | "timegm" =>
    foreignArity function 1 args
    timegm function (← listArg function (arg 0))
  | _ => noFunction "time" function

end StepLisp.Machine.Time
