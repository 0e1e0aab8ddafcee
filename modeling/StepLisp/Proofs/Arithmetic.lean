import Mathlib.Data.Rat.Floor
import StepLisp.Machine.Apply

namespace StepLisp

namespace Word

variable {n : Int} {x y q : Int64}

theorem int64?_eq_some_iff : int64? n = some x ↔ x.toInt = n := by
  refine ⟨toInt_of_int64?, fun h => ?_⟩
  have hl := x.le_toInt
  have hu := x.toInt_lt
  subst h
  rw [int64?, if_pos (by omega), Int64.ofInt_toInt]

theorem int64?_eq_none_iff : int64? n = none ↔ n < -2 ^ 63 ∨ 2 ^ 63 ≤ n := by
  simp only [int64?, ite_eq_right_iff, reduceCtorEq, imp_false]
  omega

theorem quotient?_eq_some_iff :
    quotient? x y = some q ↔ y ≠ 0 ∧ q.toInt = x.toInt.tdiv y.toInt := by
  by_cases hy : y = 0 <;> simp [quotient?, hy, int64?_eq_some_iff]

theorem toInt_ne_zero (hy : y ≠ 0) : y.toInt ≠ 0 :=
  fun h => hy (Int64.toInt_inj.mp h)

end Word

-- Something remains, and the signs differ. Then the quotients that are rounded down and towards
-- zero are not the same.
def Corrects (a b : Int) : Prop :=
  a.tmod b ≠ 0 ∧ (a < 0 ↔ ¬b < 0)

instance (a b : Int) : Decidable (Corrects a b) :=
  inferInstanceAs (Decidable (_ ∧ _))

namespace Corrects

variable {a b : Int}

theorem fdiv_eq (hb : b ≠ 0) :
    a.fdiv b = if Corrects a b then a.tdiv b - 1 else a.tdiv b := by
  simp only [Int.fdiv_eq_tdiv, Int.dvd_iff_tmod_eq_zero, Corrects]
  rcases Int.lt_trichotomy b 0 with h | h | h
  · rw [Int.sign_eq_neg_one_of_neg h]
    split_ifs <;> omega
  · contradiction
  · rw [Int.sign_eq_one_of_pos h]
    split_ifs <;> omega

-- A divisor that leaves something is at least two, so the quotient is far from the ends.
theorem two_mul_natAbs_le (hb : b ≠ 0) (h : Corrects a b) : 2 * (a.tdiv b).natAbs ≤ a.natAbs := by
  have hn : b.natAbs ≠ 1 := by
    intro hb
    rcases Int.natAbs_eq_iff.mp hb with rfl | rfl
    · exact h.left (Int.tmod_one a)
    · exact h.left (by simp [Int.tmod_neg])
  have hle : 2 ≤ b.natAbs := by omega
  calc 2 * (a.tdiv b).natAbs
    _ = 2 * (a.natAbs / b.natAbs) := by rw [Int.natAbs_tdiv]; rfl
    _ ≤ b.natAbs * (a.natAbs / b.natAbs) := Nat.mul_le_mul_right _ hle
    _ ≤ a.natAbs := Nat.mul_div_le ..

end Corrects

theorem floor_div_eq_fdiv (a : Int) {b : Int} (hb : b ≠ 0) : ⌊(a : ℚ) / b⌋ = a.fdiv b := by
  have hpos : ∀ (a b : Int), 0 < b → ⌊(a : ℚ) / b⌋ = a.fdiv b := by
    intro a b hb
    obtain ⟨n, rfl⟩ := Int.eq_ofNat_of_zero_le hb.le
    rw [Int.fdiv_eq_ediv_of_nonneg a hb.le]
    exact Rat.floor_intCast_div_natCast a n
  rcases lt_or_gt_of_ne hb with h | h
  · rw [← Int.neg_fdiv_neg, ← hpos (-a) (-b) (by omega)]
    simp
  · exact hpos a b h

namespace Machine

variable {x y q : Int64} {m : Machine} {b : Builtin} {op : Operation}

theorem corrects_iff : (x % y != 0 && (x < 0) != (y < 0)) = true ↔ Corrects x.toInt y.toInt := by
  have hmod : x % y ≠ 0 ↔ x.toInt.tmod y.toInt ≠ 0 := by
    rw [← Int64.toInt_mod, ← Int64.toInt_zero, Ne, Ne, Int64.toInt_inj]
  simp only [Bool.and_eq_true, bne_iff_ne, hmod, Int64.lt_iff_toInt_lt, Int64.toInt_zero, Corrects,
    ne_eq, decide_eq_decide, not_iff]
  tauto

-- The quotient can be corrected without leaving the words.
theorem toInt_sub_one (hq : Word.quotient? x y = some q) (hc : Corrects x.toInt y.toInt) :
    (q - 1).toInt = q.toInt - 1 := by
  have ⟨hy, hq⟩ := Word.quotient?_eq_some_iff.mp hq
  have hle := hc.two_mul_natAbs_le (Word.toInt_ne_zero hy)
  have hl := x.le_toInt
  have hu := x.toInt_lt
  rw [Int64.toInt_sub, Int64.toInt_one]
  exact Int.bmod_eq_of_le (by omega) (by omega)

theorem floorDiv_of_quotient? (hq : Word.quotient? x y = some q) :
    floorDiv x y = .ok (if x % y != 0 && (x < 0) != (y < 0) then q - 1 else q) := by
  have ⟨hy, _⟩ := Word.quotient?_eq_some_iff.mp hq
  simp only [floorDiv, if_neg hy, hq, exact]
  rfl

theorem floorDiv_eq (hy : y ≠ 0) :
    floorDiv x y = exact .div (Word.int64? (x.toInt.fdiv y.toInt)) := by
  have hy' := Word.toInt_ne_zero hy
  have hq : Word.quotient? x y = Word.int64? (x.toInt.tdiv y.toInt) := if_neg hy
  cases ht : Word.int64? (x.toInt.tdiv y.toInt)
  case some q =>
    have hf : Word.int64? (x.toInt.fdiv y.toInt) =
        some (if x % y != 0 && (x < 0) != (y < 0) then q - 1 else q) := by
      simp only [corrects_iff]
      rw [Word.int64?_eq_some_iff, Corrects.fdiv_eq hy', ← Word.toInt_of_int64? ht]
      split
      case isTrue hc => exact toInt_sub_one (hq.trans ht) hc
      case isFalse => rfl
    rw [floorDiv_of_quotient? (hq.trans ht), hf, exact]
  case none =>
    -- The quotient is `2 ^ 63`, and nothing remains.
    have hc : ¬Corrects x.toInt y.toInt := fun hc => by
      have hle := hc.two_mul_natAbs_le hy'
      have hl := x.le_toInt
      have hu := x.toInt_lt
      have ho := Word.int64?_eq_none_iff.mp ht
      omega
    rw [Corrects.fdiv_eq hy', if_neg hc, ht]
    simp only [floorDiv, if_neg hy, hq, ht, exact]
    rfl

end Machine

-- A calculation with words that a builtin can be asked for.
inductive Calculation
  | add (x y : Int64)
  | sub (x y : Int64)
  | neg (x : Int64)
  | mul (x y : Int64)
  | div (x y : Int64)

namespace Calculation

def builtin : Calculation → Builtin
  | add .. => .add
  | sub .. | neg _ => .sub
  | mul .. => .mul
  | div .. => .div

def args : Calculation → List Value
  | add x y | sub x y | mul x y | div x y => [.int x, .int y]
  | neg x => [.int x]

-- What it comes to in the integers.
def result? : Calculation → Option Int
  | add x y => some (x.toInt + y.toInt)
  | sub x y => some (x.toInt - y.toInt)
  | neg x => some (0 - x.toInt)
  | mul x y => some (x.toInt * y.toInt)
  | div x y => if y = 0 then none else some ⌊(x.toInt : ℚ) / y.toInt⌋

theorem result?_div {x y : Int64} (hy : y ≠ 0) :
    (div x y).result? = some (x.toInt.fdiv y.toInt) := by
  rw [result?, if_neg hy, floor_div_eq_fdiv _ (Word.toInt_ne_zero hy)]

def outcome (c : Calculation) : Except Arithmetic Int64 :=
  match c.result? with
  | some n => Machine.exact c.builtin (Word.int64? n)
  | none => .error .divisionByZero

end Calculation

namespace Machine

theorem arguments_of_toList? {vs : List Value}
    (h : m.image.store.toList? m.control.argl = some vs) :
    arguments b m = .ok vs m := by
  simp only [arguments, Bind.bind, EStateM.bind, argl, query, h]
  rfl

theorem looseArguments_eq {vs : List Value} (h : m.image.store.toList? m.control.argl = some vs) :
    looseArguments m = .ok vs m := by
  simp only [looseArguments, Bind.bind, EStateM.bind, argl, query, h]
  rfl

theorem binary_eq (h : m.image.store.toList? m.control.argl = some [.int x, .int y]) :
    binary b op m = (arithmetic (op.ints x y) >>= fun r => deliver (.int r)) m := by
  simp only [binary, twoArguments, Bind.bind, EStateM.bind, arguments_of_toList? h, pure,
    EStateM.pure, numeric]
  cases op.ints x y <;> rfl

theorem minus_eq (h : m.image.store.toList? m.control.argl = some [.int x, .int y]) :
    minus m = (arithmetic (Operation.sub.ints x y) >>= fun r => deliver (.int r)) m := by
  simp only [minus, Bind.bind, EStateM.bind, looseArguments_eq h, numeric]
  cases Operation.sub.ints x y <;> rfl

theorem minus_single_eq (h : m.image.store.toList? m.control.argl = some [.int x]) :
    minus m = (arithmetic (Operation.sub.ints 0 x) >>= fun r => deliver (.int r)) m := by
  simp only [minus, Bind.bind, EStateM.bind, looseArguments_eq h, numeric]
  cases Operation.sub.ints 0 x <;> rfl

theorem run_eq_of_calculation (c : Calculation)
    (h : m.image.store.toList? m.control.argl = some c.args) :
    c.builtin.run m = (arithmetic c.outcome >>= fun r => deliver (.int r)) m := by
  cases c
  case add | mul => exact binary_eq h
  case sub x y => exact minus_eq h
  case neg x => exact minus_single_eq h
  case div x y =>
    have ho : floorDiv x y = (Calculation.div x y).outcome := by
      by_cases hy : y = 0
      · simp only [floorDiv, Calculation.outcome, Calculation.result?, hy]
        rfl
      · rw [floorDiv_eq hy, Calculation.outcome, Calculation.result?_div hy]
        rfl
    exact ho ▸ binary_eq h

end Machine

namespace Calculation

variable {c : Calculation} {n : Int}

theorem outcome_of_fits (hn : c.result? = some n) (hl : -2 ^ 63 ≤ n) (hu : n < 2 ^ 63) :
    ∃ r : Int64, r.toInt = n ∧ c.outcome = .ok r := by
  have hn' : Word.int64? n ≠ none := fun h => by
    have := Word.int64?_eq_none_iff.mp h
    omega
  have ⟨r, hr⟩ := Option.ne_none_iff_exists'.mp hn'
  refine ⟨r, Word.toInt_of_int64? hr, ?_⟩
  rw [outcome, hn]
  simp only [hr, Machine.exact]

theorem outcome_of_not_fits (h : ∀ n, c.result? = some n → n < -2 ^ 63 ∨ 2 ^ 63 ≤ n) :
    ∃ cause, c.outcome = .error cause := by
  rw [outcome]
  split
  case h_1 n hn =>
    rw [Word.int64?_eq_none_iff.mpr (h n hn)]
    exact ⟨_, rfl⟩
  case h_2 => exact ⟨_, rfl⟩

end Calculation

-- Inside the division, `x % y` is never the remainder by zero or that of the least word by `-1`,
-- which has no quotient, and a correction does not leave the words.
theorem calculation_exact (c : Calculation) {id : BuiltinId} {m : Machine}
    (hb : Builtin.ofId? id = some c.builtin)
    (h : m.image.store.toList? m.control.argl = some c.args) :
    (∀ n, c.result? = some n → -2 ^ 63 ≤ n → n < 2 ^ 63 → ∃ r : Int64, r.toInt = n ∧
      Machine.step (.apply (.builtin id)) m =
        .ok m.control.cont { m with control := { m.control with val := .int r } }) ∧
    ((∀ n, c.result? = some n → n < -2 ^ 63 ∨ 2 ^ 63 ≤ n) → ∃ cause,
      Machine.step (.apply (.builtin id)) m = .error (.arithmetic cause) m) ∧
    ∀ x y q, c = .div x y → Word.quotient? x y = some q →
      Machine.floorDiv x y = .ok (if x % y != 0 && (x < 0) != (y < 0) then q - 1 else q) ∧
      y ≠ 0 ∧ ¬(x = Int64.minValue ∧ y = -1) ∧ (x % y).toInt = x.toInt.tmod y.toInt ∧
      (x % y != 0 && (x < 0) != (y < 0) → (q - 1).toInt = q.toInt - 1) := by
  have hrun : Machine.step (.apply (.builtin id)) m =
      (Machine.arithmetic c.outcome >>= fun r => Machine.deliver (.int r)) m := by
    rw [← Machine.run_eq_of_calculation c h, Machine.step, Machine.applyProc, hb]
  refine ⟨fun n hn hl hu => ?_, fun hn => ?_, fun x y q hc hq => ?_⟩
  case refine_1 =>
    have ⟨r, hr, ho⟩ := c.outcome_of_fits hn hl hu
    rw [hrun, ho]
    exact ⟨r, hr, rfl⟩
  case refine_2 =>
    have ⟨cause, ho⟩ := c.outcome_of_not_fits hn
    rw [hrun, ho]
    exact ⟨cause, rfl⟩
  case refine_3 =>
    have ⟨hy, _⟩ := Word.quotient?_eq_some_iff.mp hq
    refine ⟨Machine.floorDiv_of_quotient? hq, hy, ?_, Int64.toInt_mod x y,
      fun hc => Machine.toInt_sub_one hq (Machine.corrects_iff.mp hc)⟩
    rintro ⟨rfl, rfl⟩
    cases hq

-- A machine that is about to divide.
def dividing (x y : Int64) : Machine where
  image.store.cells := #[⟨.int x, .pair ⟨1⟩⟩, ⟨.int y, .nil⟩]
  image.store.capacity := 2
  image.store.threshold := 1
  image.symbols := .base
  control.env := ⟨0⟩
  control.argl := .pair ⟨0⟩
  global := ⟨0⟩
  settings := {}
  generator := default
  clock := default

theorem calculation_exact_floor :
    let divide : Step := .apply (.builtin ⟨Builtin.all.toList.idxOf .div⟩)
    (∃ r : Int64, r.toInt = -4 ∧ Machine.step divide (dividing (-7) 2) =
      .ok .halt { dividing (-7) 2 with control.val := .int r }) ∧
    ∃ cause, Machine.step divide (dividing Int64.minValue (-1)) =
      .error (.arithmetic cause) (dividing Int64.minValue (-1)) := by
  refine ⟨(calculation_exact (.div (-7) 2) rfl rfl).left (-4) (Calculation.result?_div (by decide))
      (by decide) (by decide),
    (calculation_exact (.div Int64.minValue (-1)) rfl rfl).right.left fun n hn => ?_⟩
  have hq : (Calculation.div Int64.minValue (-1)).result? = some (2 ^ 63) :=
    Calculation.result?_div (by decide)
  cases hn.symm.trans hq
  exact .inr (Int.le_refl _)

end StepLisp
