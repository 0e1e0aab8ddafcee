import StepLisp.Decimal.Numeral

namespace StepLisp

structure Settings where
  heapCells : Nat := 16000000
  gcThreshold : Nat := 65536
  maxSteps : Nat := 0xffffffffffffffff
  seed : Option Nat := none
  deriving DecidableEq, Repr

namespace Settings

-- White space in the sense of Unicode.
def isSpace (c : Char) : Bool :=
  let n := c.toNat
  (0x09 ≤ n && n ≤ 0x0d) || n = 0x20 || n = 0x85 || n = 0xa0 || n = 0x1680 ||
    (0x2000 ≤ n && n ≤ 0x200a) || n = 0x2028 || n = 0x2029 || n = 0x202f || n = 0x205f || n = 0x3000

def trim (cs : List Char) : List Char :=
  ((cs.dropWhile isSpace).reverse.dropWhile isSpace).reverse

def word? (text : String) : Option Nat :=
  Numeral.word? (trim text.toList)

def ofVariables (lookup? : String → Option String) : Settings :=
  let read name := (lookup? name).bind word?
  let defaults : Settings := {}
  { heapCells := (read "LYSP_HEAP_CELLS").getD defaults.heapCells
    gcThreshold := (read "LYSP_GC_THRESHOLD").getD defaults.gcThreshold
    maxSteps := (read "LYSP_MAX_STEPS").getD defaults.maxSteps
    seed := read "LYSP_SEED" }

end Settings
end StepLisp
