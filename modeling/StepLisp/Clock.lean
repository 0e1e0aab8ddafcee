namespace StepLisp

-- Where the time comes from. The source has numbered states. A reading leads from one to another,
-- and so does sleeping for a number of nanoseconds.
structure Timekeeping where
  -- nanoseconds since the machine was started
  monotonic : Nat → Nat × Nat
  -- nanoseconds since 1970
  wall : Nat → Int × Nat
  sleep : Nat → Nat → Nat
  deriving Inhabited

structure Clock where
  source : Timekeeping
  state : Nat
  deriving Inhabited

namespace Clock

def monotonic (c : Clock) : Nat × Clock :=
  let (t, state) := c.source.monotonic c.state
  (t, { c with state })

def wall (c : Clock) : Int × Clock :=
  let (t, state) := c.source.wall c.state
  (t, { c with state })

def sleep (c : Clock) (nanoseconds : Nat) : Clock :=
  { c with state := c.source.sleep c.state nanoseconds }

def seconds (nanoseconds : Nat) : Float :=
  Float.ofNat (nanoseconds / 1000000000) + Float.ofNat (nanoseconds % 1000000000) / 1e9

def wallSeconds (nanoseconds : Int) : Float :=
  Float.ofInt (nanoseconds / 1000000000) + Float.ofInt (nanoseconds % 1000000000) * 1e-9

end Clock
end StepLisp
