import StepLisp.Proofs.Decimal.Scientific

namespace StepLisp

open Float.Model Float.Model.UnpackedFloat

namespace Rounding

variable {m m₁ m₂ n : Nat} {e e₁ e₂ : Int} {s₁ s₂ : Sign} {x y : Float} {v : ℚ} {h₁ : 0 < m₁}

theorem mul_eq (h₁ : 0 < m₁) (h₂ : 0 < m₂) (hl : 2 ^ 52 ≤ m₁ * m₂) (hc : Canonical m e)
    (hr : Rounds m e (m₁ * 2 ^ e₁ * (m₂ * 2 ^ e₂))) :
    UnpackedFloat.mul .binary64 (.finite s₁ m₁ e₁ h₁) (.finite s₂ m₂ e₂ h₂) =
      .finite (s₁ * s₂) m e hc.pos := by
  have hlog : 52 ≤ (m₁ * m₂).log2 := (Nat.le_log2 (by positivity)).mpr hl
  refine roundWithAccuracy_eq ?_ ?_ hc hr
  · have hx : (m₁ * 2 ^ e₁ * (m₂ * 2 ^ e₂) / 2 ^ (e₁ + e₂) : ℚ) = (m₁ * m₂ : Nat) := by
      rw [zpow_add₀ (by norm_num)]
      push_cast
      field_simp
    rw [hx]
    exact .exactly _
  · rw [targetExponent_eq, totalExponent_eq]
    omega

theorem Exactly.mul (hx : x.toModel.unpack = .finite .positive m₁ e₁ h₁) (hl : 2 ^ 52 ≤ m₁)
    (hy : Exactly y v) (hc : Canonical m e) (hr : Rounds m e (m₁ * 2 ^ e₁ * v)) :
    (x * y).toModel.unpack = .finite .positive m e hc.pos := by
  obtain ⟨m₂, e₂, h₂, hy, rfl⟩ := hy
  show (Float.Model.pack (UnpackedFloat.mul .binary64 x.toModel.unpack y.toModel.unpack)).unpack = _
  rw [hx, hy, mul_eq h₁ h₂ (hl.trans (Nat.le_mul_of_pos_right _ h₂)) hc hr]
  exact unpack_pack hc

theorem ofNat_unpack (hn : 0 < n) (hc : Canonical m e) (hr : Rounds m e n) :
    (Float.ofNat n).toModel.unpack = .finite .positive m e hc.pos := by
  show (Float.ofScientific n false 0).toModel.unpack = _
  by_cases h : n < 2 ^ 53 ∧ 0 ≤ 22
  case pos =>
    have hd : Float.ofScientific n false 0 =
        n.toUInt64.toFloat * Float.exactlyRepresentablePowersOfTen[0] :=
      dif_pos h
    rw [hd]
    have hl : n.log2 < 53 := (Nat.log2_lt hn.ne').mpr h.1
    have hk : n.log2 + (52 - n.log2) = 52 := by omega
    have hn' := canonical_shiftLeft hn hk
    refine Exactly.mul (toFloat_unpack hn hk) (hn'.normal.resolve_right (by omega))
      (exactly_power (n := 0) (by norm_num)) hc ?_
    rwa [shiftLeft_mul_zpow, pow_zero, mul_one]
  case neg =>
    have hs : Float.ofScientific n false 0 = ⟨Float.Model.ofScientific n 0⟩ := dif_neg h
    have h1 : ¬(0 : Int) > 2 ^ Format.binary64.exponentBits := by decide
    have h2 : ¬(0 : Int) < -(2 ^ Format.binary64.exponentBits + n.log2) := by
      show ¬(0 : Int) < -(2 ^ 11 + n.log2)
      omega
    have hr : Rounds m e
        ((n <<< 53 : Nat) * 2 ^ (-(53 : Nat) : Int) * ((10 ^ 0 : Nat) * 2 ^ (0 : Int))) := by
      rw [shiftLeft_mul_zpow]
      simpa using hr
    have hl : 2 ^ 52 ≤ n <<< 53 * 10 ^ 0 := by
      rw [Nat.shiftLeft_eq]
      omega
    have hu : UnpackedFloat.ofScientific .binary64 n 0 = .finite .positive m e hc.pos := by
      rw [UnpackedFloat.ofScientific, dif_neg hn.ne', if_neg h1, if_neg h2, if_pos le_rfl]
      exact mul_eq (Nat.shiftLeft_pos_iff.mpr hn) (by positivity) hl hc hr
    rw [hs]
    show (Float.Model.pack (UnpackedFloat.ofScientific .binary64 n 0)).unpack = _
    rw [hu]
    exact unpack_pack hc

-- The double that a number of `k` bits after its first 53 is rounded to.
section Nearest

variable {q r k : Nat}

theorem Rounds.of_low (hr : 2 * r < 2 ^ k ∨ 2 * r = 2 ^ k ∧ q % 2 = 0) :
    Rounds q k (q * 2 ^ k + r : Nat) := by
  have hp : (0 : ℚ) < 2 ^ k := by positivity
  have hreach : 0 < reach q k * 2 ^ k := mul_pos (reach_pos _ _) hp
  have hr₀ : (0 : ℚ) ≤ r := r.cast_nonneg
  have hle : (2 * r : ℚ) ≤ 2 ^ k := by
    have : 2 * r ≤ 2 ^ k := by omega
    exact_mod_cast this
  constructor <;> rw [zpow_natCast] <;> push_cast
  case low => linarith
  case high => linarith
  case tie =>
    rintro (h | h)
    case inl => linarith
    case inr =>
      have h : (2 * r : ℚ) = 2 ^ k := by linarith
      have h : 2 * r = 2 ^ k := by exact_mod_cast h
      omega

theorem Rounds.of_high (hq : 2 ^ 52 ≤ q) (hk : r < 2 ^ k)
    (hr : 2 ^ k < 2 * r ∨ 2 * r = 2 ^ k ∧ q % 2 = 1) : Rounds (q + 1) k (q * 2 ^ k + r : Nat) := by
  have hp : (0 : ℚ) < 2 ^ k := by positivity
  have hreach : reach (q + 1) k = 1 / 2 := if_neg (by omega)
  have hlt : (r : ℚ) < 2 ^ k := by exact_mod_cast hk
  have hle : (2 ^ k : ℚ) ≤ 2 * r := by
    have : 2 ^ k ≤ 2 * r := by omega
    exact_mod_cast this
  constructor <;> rw [zpow_natCast] <;> push_cast
  case low => rw [hreach]; linarith
  case high => linarith
  case tie =>
    rw [hreach]
    rintro (h | h)
    case inl =>
      have h : (2 * r : ℚ) = 2 ^ k := by linarith
      have h : 2 * r = 2 ^ k := by exact_mod_cast h
      omega
    case inr => linarith

theorem Rounds.of_carry (hk : r < 2 ^ k) (hr : 2 ^ k ≤ 2 * r) :
    Rounds (2 ^ 52) (k + 1 : Nat) ((2 ^ 53 - 1) * 2 ^ k + r : Nat) := by
  have hp : (0 : ℚ) < 2 ^ k := by positivity
  have hreach : reach (2 ^ 52) (k + 1 : Nat) = 1 / 4 := if_pos ⟨rfl, by omega⟩
  have hlt : (r : ℚ) < 2 ^ k := by exact_mod_cast hk
  have hle : (2 ^ k : ℚ) ≤ 2 * r := by exact_mod_cast hr
  have hz : (2 : ℚ) ^ ((k + 1 : Nat) : Int) = 2 ^ k * 2 := by rw [zpow_natCast, pow_succ]
  constructor <;> rw [hz]
  case low => rw [hreach]; push_cast; linarith
  case high => push_cast; linarith
  case tie => norm_num

end Nearest

-- A whole number of more than 53 bits is rounded to a double that has as many.
theorem exists_rounds (hl : 2 ^ 53 ≤ n) (hn : n < 2 ^ 64) :
    ∃ m e, Canonical m e ∧ Rounds m e n ∧ 2 ^ 52 ≤ m ∧ 0 < e := by
  have hlog : 53 ≤ n.log2 := (Nat.le_log2 (by omega)).mpr hl
  have hlog' : n.log2 < 64 := (Nat.log2_lt (by omega)).mpr hn
  obtain ⟨k, hk⟩ : ∃ k, n.log2 = 52 + k := ⟨n.log2 - 52, by omega⟩
  have hp : 0 < 2 ^ k := by positivity
  have hq : 2 ^ 52 ≤ n / 2 ^ k := by
    rw [Nat.le_div_iff_mul_le hp, ← pow_add, ← hk]
    exact Nat.log2_self_le (by omega)
  have hq' : n / 2 ^ k < 2 ^ 53 := by
    rw [Nat.div_lt_iff_lt_mul hp, ← pow_add, show 53 + k = n.log2 + 1 by omega]
    exact Nat.lt_log2_self
  have hr := Nat.mod_lt n hp
  have hd := Nat.div_add_mod' n (2 ^ k)
  generalize n / 2 ^ k = q, n % 2 ^ k = r at *
  subst hd
  by_cases hlow : 2 * r < 2 ^ k ∨ 2 * r = 2 ^ k ∧ q % 2 = 0
  case pos => exact ⟨q, k, ⟨by omega, hq', by omega, by omega, .inl hq⟩, .of_low hlow, hq, by omega⟩
  case neg =>
    by_cases hc : q + 1 = 2 ^ 53
    case pos =>
      obtain rfl : q = 2 ^ 53 - 1 := by omega
      exact ⟨2 ^ 52, (k + 1 : Nat), ⟨by omega, by omega, by omega, by omega, .inl le_rfl⟩,
        .of_carry hr (by omega), le_rfl, by omega⟩
    case neg =>
      exact ⟨q + 1, k, ⟨by omega, by omega, by omega, by omega, .inl (by omega)⟩,
        .of_high hq hr (by omega), by omega, by omega⟩

end Rounding

namespace Binary64

open Rounding

variable {m : Nat} {e n : Int}

theorem ofFloat_ofInt (hn : n ≠ 0) (hc : Canonical m e) (hr : Rounds m e n.natAbs) :
    ofFloat (Float.ofInt n) = finite (decide (n < 0)) m e := by
  rw [← ofUnpacked_toModel]
  cases n
  case ofNat n =>
    have hp : 0 < n := Nat.pos_of_ne_zero fun h => hn (congrArg Int.ofNat h)
    rw [show Float.ofInt (.ofNat n) = Float.ofNat n from rfl, ofNat_unpack hp hc hr]
    rfl
  case negSucc n =>
    have hu := neg_unpack hc (ofNat_unpack n.succ_pos hc hr)
    rw [show Float.ofInt (.negSucc n) = -Float.ofNat n.succ from rfl, hu,
      decide_eq_true (Int.negSucc_lt_zero n)]
    rfl

theorem scaled_shiftLeft (n : Int) (k : Nat) : scaled Int.fdiv (n * 2 ^ k) (-k) = n := by
  unfold scaled
  split
  case isTrue h =>
    obtain rfl : k = 0 := by omega
    simp
  case isFalse =>
    rw [Int.neg_neg, Int.toNat_natCast, show ((Nat.pow 2 k : Nat) : Int) = 2 ^ k by norm_cast]
    exact Int.mul_fdiv_cancel _ (by positivity)

-- An integer of at most 53 bits is the double that it is taken for.
theorem floor?_ofInt_of_lt (hn : n.natAbs < 2 ^ 53) :
    (ofFloat (Float.ofInt n)).floor? = some n := by
  by_cases h0 : n = 0
  case pos =>
    subst h0
    decide +kernel
  case neg =>
    have hl : n.natAbs.log2 < 53 := (Nat.log2_lt (by omega)).mpr hn
    obtain ⟨k, hk⟩ : ∃ k, n.natAbs.log2 + k = 52 := ⟨52 - n.natAbs.log2, by omega⟩
    have hr := Rounds.self (n.natAbs <<< k) (-k)
    rw [shiftLeft_mul_zpow] at hr
    have hv : (if decide (n < 0) then -((n.natAbs <<< k : Nat) : Int) else (n.natAbs <<< k : Nat)) =
        n * 2 ^ k := by
      rw [Nat.shiftLeft_eq]
      push_cast
      by_cases h : n < 0
      case pos => simp [h, abs_of_neg h]
      case neg => simp [h, abs_of_nonneg (not_lt.mp h)]
    rw [ofFloat_ofInt h0 (canonical_shiftLeft (by omega) hk) hr]
    exact congrArg some (hv ▸ scaled_shiftLeft n k)

-- A longer one is taken for a double that is as long.
theorem exists_floor?_ofInt (hl : 2 ^ 53 ≤ n.natAbs) (hn : n.natAbs < 2 ^ 64) :
    ∃ k, (ofFloat (Float.ofInt n)).floor? = some k ∧ 2 ^ 53 ≤ k.natAbs := by
  obtain ⟨m, e, hc, hr, hm, he⟩ := exists_rounds hl hn
  rw [ofFloat_ofInt (by omega) hc hr]
  refine ⟨_, rfl, ?_⟩
  have hv : (if decide (n < 0) then -(m : Int) else m).natAbs = m := by split <;> simp
  have hp : 2 ^ 1 ≤ 2 ^ e.toNat := Nat.pow_le_pow_right (by norm_num) (by omega)
  rw [scaled, if_pos he.le, Int.natAbs_mul, hv, Int.natAbs_natCast]
  exact Nat.mul_le_mul hm hp

end Binary64
end StepLisp
