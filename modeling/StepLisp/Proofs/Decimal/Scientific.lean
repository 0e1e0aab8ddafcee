import StepLisp.Decimal.Numeral
import StepLisp.Proofs.Decimal.Bits

namespace StepLisp

open Float.Model Float.Model.UnpackedFloat

namespace Rounding

variable {m k n : Nat} {e : Int} {x y : Float} {u v : ℚ}

-- The positive numbers that doubles stand for.
def Exactly (x : Float) (v : ℚ) : Prop :=
  ∃ (m : Nat) (e : Int) (hm : 0 < m), x.toModel.unpack = .finite .positive m e hm ∧ v = m * 2 ^ e

theorem reach_pos (m : Nat) (e : Int) : 0 < reach m e := by
  unfold reach
  split <;> norm_num

theorem Rounds.self (m : Nat) (e : Int) : Rounds m e (m * 2 ^ e) := by
  have hp : (0 : ℚ) < 2 ^ e := by positivity
  have hreach := reach_pos m e
  have hlow : (m - reach m e) * 2 ^ e < m * 2 ^ e := by gcongr; linarith
  have hhigh : (m : ℚ) * 2 ^ e < (m + 1 / 2) * 2 ^ e := by gcongr; linarith
  exact ⟨hlow.le, hhigh.le, fun h => (h.elim hlow.ne' hhigh.ne).elim⟩

theorem Exactly.div (hx : Exactly x u) (hy : Exactly y v) (hc : Canonical m e)
    (hr : Rounds m e (u / v)) : (x / y).toModel.unpack = .finite .positive m e hc.pos := by
  have ⟨m₁, e₁, h₁, hx, hu⟩ := hx
  have ⟨m₂, e₂, h₂, hy, hv⟩ := hy
  rw [hu, hv] at hr
  show (Float.Model.pack (UnpackedFloat.div .binary64 x.toModel.unpack y.toModel.unpack)).unpack = _
  rw [hx, hy, div_eq h₁ h₂ hc hr]
  exact unpack_pack hc

theorem canonical_shiftLeft (hn : 0 < n) (hk : n.log2 + k = 52) : Canonical (n <<< k) (-k) := by
  have hlow : 2 ^ 52 ≤ n <<< k := by
    rw [Nat.shiftLeft_eq, ← hk, pow_add]
    exact Nat.mul_le_mul_right _ (Nat.log2_self_le hn.ne')
  have hhigh : n <<< k < 2 ^ 53 := by
    have he : 53 = n.log2 + 1 + k := by omega
    rw [Nat.shiftLeft_eq, he, pow_add]
    exact Nat.mul_lt_mul_of_pos_right Nat.lt_log2_self (by positivity)
  exact ⟨by omega, hhigh, by omega, by omega, .inl hlow⟩

theorem shiftLeft_mul_zpow (n k : Nat) : ((n <<< k : Nat) : ℚ) * 2 ^ (-k : Int) = n := by
  rw [Nat.shiftLeft_eq, zpow_neg, zpow_natCast]
  push_cast
  rw [mul_assoc, mul_inv_cancel₀ (by positivity), mul_one]

theorem ofNat_eq (hn : 0 < n) (hk : n.log2 + k = 52) : UnpackedFloat.ofNat .binary64 n =
    .finite .positive (n <<< k) (-k) (canonical_shiftLeft hn hk).pos := by
  have hc := canonical_shiftLeft hn hk
  have hlog := hc.log2_eq_iff.mpr (hc.normal.resolve_right (by omega))
  have hg : compare (n : Int) 0 = .gt := Int.compare_eq_gt.mpr (by omega)
  have ht : Format.binary64.targetExponent (totalExponent n 0) = -k := by
    rw [targetExponent_eq, totalExponent_eq]
    omega
  have hs : decreaseExponent n 0 (-k) = (n <<< k, (-k : Int)) := by simp [decreaseExponent]
  have hr : UnpackedFloat.ofNat .binary64 n =
      roundWithAccuracy .binary64 .positive (n <<< k) (-k) .exact := by
    simp only [UnpackedFloat.ofNat, UnpackedFloat.ofInt, UnpackedFloat.normalize, hg,
      UnpackedFloat.round, Int.toNat_natCast, ht, hs]
  rw [hr]
  refine roundWithAccuracy_eq (v := ((n <<< k : Nat) * 2 ^ (-k : Int) : ℚ)) ?_ ?_ hc (.self _ _)
  · rw [mul_div_cancel_right₀ _ (by positivity)]
    exact .exactly _
  · rw [targetExponent_eq, totalExponent_eq]
    omega

theorem toFloat_unpack (hn : 0 < n) (hk : n.log2 + k = 52) : n.toUInt64.toFloat.toModel.unpack =
    .finite .positive (n <<< k) (-k) (canonical_shiftLeft hn hk).pos := by
  have hlt : n < 2 ^ 53 := (Nat.log2_lt hn.ne').mp (by omega)
  have hn' : n.toUInt64.toNat = n :=
    UInt64.toNat_ofNat_of_lt (by norm_num [UInt64.size] at *; omega)
  show (Float.Model.pack (UnpackedFloat.ofNat .binary64 n.toUInt64.toNat)).unpack = _
  rw [hn', ofNat_eq hn hk]
  exact unpack_pack (canonical_shiftLeft hn hk)

-- Whole numbers of fewer than 54 bits are doubles.
theorem Exactly.toFloat (hn : 0 < n) (hlt : n < 2 ^ 53) : Exactly n.toUInt64.toFloat n := by
  have hl : n.log2 < 53 := (Nat.log2_lt hn.ne').mpr hlt
  have hk : n.log2 + (52 - n.log2) = 52 := by omega
  exact ⟨_, _, (canonical_shiftLeft hn hk).pos, toFloat_unpack hn hk, (shiftLeft_mul_zpow n _).symm⟩

def isPowerOfTen (n : Nat) : Binary64 → Bool
  | .finite false m e => 0 < m && -52 ≤ e && m * 2 ^ (e + 52).toNat == 10 ^ n * 2 ^ 52
  | _ => false

-- So are the first powers of ten.
theorem exactly_power (h : n < 23) : Exactly Float.exactlyRepresentablePowersOfTen[n] (10 ^ n) := by
  have hp : ∀ i : Fin 23,
      isPowerOfTen i (Binary64.ofFloat Float.exactlyRepresentablePowersOfTen[i]) := by
    decide +kernel
  specialize hp ⟨n, h⟩
  change isPowerOfTen n (Binary64.ofFloat Float.exactlyRepresentablePowersOfTen[n]) at hp
  generalize Float.exactlyRepresentablePowersOfTen[n] = x at hp
  unfold isPowerOfTen at hp
  split at hp
  case h_2 => cases hp
  case h_1 m e hx =>
    simp only [Bool.and_eq_true, decide_eq_true_eq, beq_iff_eq] at hp
    have ⟨⟨hm, he⟩, hv⟩ := hp
    have hu := Binary64.eq_finite_of_ofUnpacked ((Binary64.ofUnpacked_toModel x).trans hx) hm
    refine ⟨m, e, hm, hu, ?_⟩
    have hv : (m * 2 ^ (e + 52).toNat : ℚ) = 10 ^ n * 2 ^ 52 := by exact_mod_cast hv
    have hz : (2 : ℚ) ^ (e + 52).toNat = 2 ^ 52 * 2 ^ e := by
      rw [← zpow_natCast, Int.toNat_of_nonneg (by omega)]
      exact zpow_mul_eq 52 e
    rw [hz] at hv
    have h2 : (2 : ℚ) ^ 52 ≠ 0 := by positivity
    apply mul_right_cancel₀ h2
    rw [← hv]
    ring

-- A number that is rounded to a double other than zero is not far below the doubles.
theorem Rounds.le_log2_add (hc : Canonical m e) (hr : Rounds m e (k / 10 ^ n)) :
    n ≤ k.log2 + 2 ^ 11 := by
  by_contra hn
  have hm : (1 : ℚ) ≤ m := by exact_mod_cast hc.pos
  have hreach := reach_le m e
  have hhalf : (2 : ℚ) ^ (-1074 - 1 : Int) = 1 / 2 * 2 ^ (-1074 : Int) := by
    rw [zpow_sub_one₀ (by norm_num), one_div, mul_comm]
  have hlow : (2 : ℚ) ^ (-1074 - 1 : Int) ≤ k / 10 ^ n := by
    rw [hhalf]
    refine le_trans ?_ hr.low
    gcongr
    · linarith
    · linarith
    · norm_num
    · exact hc.le_exponent
  have hhigh : (k / 10 ^ n : ℚ) < 2 ^ (k.log2 + 1 - n : Int) := by
    have hk : (k : ℚ) < 2 ^ (k.log2 + 1) := by exact_mod_cast Nat.lt_log2_self
    rw [zpow_sub₀ (by norm_num), zpow_natCast]
    calc (k / 10 ^ n : ℚ) ≤ k / 2 ^ n := by gcongr; norm_num
      _ < _ := by gcongr; exact_mod_cast hk
  have h := (zpow_lt_zpow_iff_right₀ (by norm_num : (1 : ℚ) < 2)).mp (hlow.trans_lt hhigh)
  omega

theorem ofScientific_eq (hk : 0 < k) (hn : 0 < n) (hc : Canonical m e)
    (hr : Rounds m e (k / 10 ^ n)) :
    (Float.ofScientific k true n).toModel.unpack = .finite .positive m e hc.pos := by
  by_cases h : k < 2 ^ 53 ∧ n ≤ 22
  case pos =>
    have hlt : n < 23 := Nat.lt_succ_of_le h.2
    have hd : Float.ofScientific k true n =
        k.toUInt64.toFloat / Float.exactlyRepresentablePowersOfTen[n] :=
      dif_pos h
    rw [hd]
    exact (Exactly.toFloat hk h.1).div (exactly_power hlt) hc hr
  case neg =>
    have hs : Float.ofScientific k true n = ⟨Float.Model.ofScientific k (Int.negOfNat n)⟩ :=
      dif_neg h
    have hneg : Int.negOfNat n = -n := Int.negOfNat_eq
    have hle := hr.le_log2_add hc
    have hu : UnpackedFloat.ofScientific .binary64 k (-n) = .finite .positive m e hc.pos := by
      have hr : Rounds m e
          ((k : Nat) * 2 ^ (0 : Int) / ((10 ^ (- -(n : Int)).toNat : Nat) * 2 ^ (0 : Int))) := by
        simpa using hr
      have h1 : ¬(-n : Int) > 2 ^ Format.binary64.exponentBits := by
        show ¬(-n : Int) > 2 ^ 11
        omega
      have h2 : ¬(-n : Int) < -(2 ^ Format.binary64.exponentBits + k.log2) := by
        show ¬(-n : Int) < -(2 ^ 11 + k.log2)
        omega
      rw [UnpackedFloat.ofScientific, dif_neg hk.ne', if_neg h1, if_neg h2, if_neg (by omega)]
      exact div_eq hk (by positivity) hc hr
    rw [hs]
    show (Float.Model.pack (UnpackedFloat.ofScientific .binary64 k (Int.negOfNat n))).unpack = _
    rw [hneg, hu]
    exact unpack_pack hc

theorem neg_unpack (hc : Canonical m e) (h : x.toModel.unpack = .finite .positive m e hc.pos) :
    (-x).toModel.unpack = .finite .negative m e hc.pos := by
  show (Float.Model.pack (UnpackedFloat.neg x.toModel.unpack)).unpack = _
  rw [h]
  exact unpack_pack hc

-- What is read with a sign.
def signed (negative : Bool) (x : Float) : Float :=
  if negative then -x else x

-- A decimal that is rounded to a double is read as the double.
theorem signed_ofScientific_eq {negative : Bool} (h : Binary64.ofFloat x = .finite negative m e)
    (hm : 0 < m) (hk : 0 < k) (hn : 0 < n) (hr : Rounds m e (k / 10 ^ n)) :
    signed negative (Float.ofScientific k true n) = x := by
  have hc := Binary64.canonical h hm
  have hu := ofScientific_eq hk hn hc hr
  refine Binary64.eq_of_ofFloat ?_ h
  rw [← Binary64.ofUnpacked_toModel]
  cases negative
  case false => exact congrArg Binary64.ofUnpacked hu
  case true => exact congrArg Binary64.ofUnpacked (neg_unpack hc hu)

theorem signed_zero_eq {negative : Bool} (h : Binary64.ofFloat x = .finite negative 0 e) :
    signed negative (Float.ofScientific 0 true 1) = x := by
  have hz : Binary64.ofFloat (signed negative (Float.ofScientific 0 true 1)) =
      .finite negative 0 (-1074) := by
    cases negative <;> decide +kernel
  have he : e = -1074 := by
    obtain ⟨-, ⟨-, -, he⟩ | ⟨-, hm, -⟩⟩ := Binary64.parts_of_finite h <;> omega
  exact Binary64.eq_of_ofFloat hz (he ▸ h)

end Rounding
end StepLisp
