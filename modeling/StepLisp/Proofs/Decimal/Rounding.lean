import Mathlib.Algebra.Order.Field.Power
import Mathlib.Algebra.Order.Ring.Rat
import Mathlib.Tactic.FieldSimp
import Mathlib.Tactic.Linarith
import Mathlib.Tactic.NormNum
import Mathlib.Tactic.Positivity
import Mathlib.Tactic.Ring
import StepLisp.Decimal.Binary64

namespace StepLisp

open Float.Model Float.Model.UnpackedFloat Float.Model.UnpackedFloat.ExtendedMantissa

namespace Rounding

variable {em : ExtendedMantissa} {x v : ℚ} {m n : Nat} {e : Int}

-- What a round bit counts.
def half (b : Bool) : ℚ :=
  if b then 1 / 2 else 0

-- A number from which a mantissa and its two extra bits have been cut.
inductive Describes : ExtendedMantissa → ℚ → Prop
  | exact (m : Nat) (r : Bool) : Describes ⟨m, r, false⟩ (m + half r)
  | above {δ : ℚ} (m : Nat) (r : Bool) : 0 < δ → δ < 1 / 2 → Describes ⟨m, r, true⟩ (m + half r + δ)

namespace Describes

theorem shiftRightOne (h : Describes em x) : Describes em.shiftRightOne (x / 2) := by
  have hm (m : Nat) : (m : ℚ) / 2 = (m / 2 : Nat) + half (m % 2 != 0) := by
    have hd := Nat.div_add_mod m 2
    have hq : (m : ℚ) = 2 * (m / 2 : Nat) + (m % 2 : Nat) := by exact_mod_cast hd.symm
    rcases Nat.mod_two_eq_zero_or_one m with h | h <;> rw [h] at hq ⊢ <;> rw [hq]
    · simp [half]
    · simp [half]
      ring
  cases h
  case exact m r =>
    have hx : ((m : ℚ) + half r) / 2 = (m / 2 : Nat) + half (m % 2 != 0) + half r / 2 := by
      rw [← hm]
      ring
    rw [hx]
    cases r
    case false => simpa [ExtendedMantissa.shiftRightOne, half] using exact (m / 2) (m % 2 != 0)
    case true => exact above (m / 2) _ (by norm_num [half]) (by norm_num [half])
  case above δ m r h0 h1 =>
    have hx : ((m : ℚ) + half r + δ) / 2 = (m / 2 : Nat) + half (m % 2 != 0) +
        (half r + δ) / 2 := by
      rw [add_assoc, add_div, hm]
    rw [hx]
    have hs : (r || true) = true := by simp
    rw [ExtendedMantissa.shiftRightOne, hs]
    have hr : 0 ≤ half r ∧ half r ≤ 1 / 2 := by cases r <;> norm_num [half]
    exact above (m / 2) _ (by linarith) (by linarith)

theorem shiftRight (h : Describes em x) (n : Nat) : Describes (em >>> n) (x / 2 ^ n) := by
  induction n
  case zero =>
    rw [pow_zero, div_one]
    exact h
  case succ n hi =>
    have hx : x / 2 ^ (n + 1) = x / 2 ^ n / 2 := by rw [pow_succ, div_div]
    rw [hx]
    exact hi.shiftRightOne

theorem bounds (h : Describes em x) : em.mantissa ≤ x ∧ x < em.mantissa + 1 := by
  cases h
  case exact m r => cases r <;> norm_num [half]
  case above m r h0 h1 => cases r <;> norm_num [half] <;> constructor <;> linarith

-- The mantissa that is left after rounding is the nearest whole number, and the even one of two.
theorem roundedMantissa_eq (h : Describes em x) (hl : m - 1 / 2 ≤ x) (hr : x ≤ m + 1 / 2)
    (ht : x = m - 1 / 2 ∨ x = m + 1 / 2 → m % 2 = 0) : em.roundedMantissa = m := by
  cases h
  case exact k r =>
    cases r
    case false =>
      simp only [half] at hl hr
      have h1 : (m : ℚ) < k + 1 := by norm_num at *; linarith
      have h2 : (k : ℚ) < m + 1 := by norm_num at *; linarith
      have h1 : m < k + 1 := by exact_mod_cast h1
      have h2 : k < m + 1 := by exact_mod_cast h2
      show k = m
      omega
    case true =>
      simp only [half, if_true] at hl hr ht
      have h1 : (m : ℚ) ≤ k + 1 := by linarith
      have h2 : (k : ℚ) ≤ m := by linarith
      have h1 : m ≤ k + 1 := by exact_mod_cast h1
      have h2 : k ≤ m := by exact_mod_cast h2
      have hm : m % 2 = 0 := by
        apply ht
        rcases Nat.eq_or_lt_of_le h2 with h | h
        · subst h
          exact .inr rfl
        · have hm : m = k + 1 := by omega
          subst hm
          left
          push_cast
          ring
      show k + k % 2 = m
      omega
  case above δ k r h0 h1 =>
    cases r
    case false =>
      simp only [half] at hl hr
      have h2 : (m : ℚ) < k + 1 := by norm_num at *; linarith
      have h3 : (k : ℚ) < m + 1 := by norm_num at *; linarith
      have h2 : m < k + 1 := by exact_mod_cast h2
      have h3 : k < m + 1 := by exact_mod_cast h3
      show k = m
      omega
    case true =>
      simp only [half, if_true] at hl hr
      have h2 : (m : ℚ) < k + 2 := by linarith
      have h3 : (k : ℚ) < m := by linarith
      have h2 : m < k + 2 := by exact_mod_cast h2
      have h3 : k < m := by exact_mod_cast h3
      show k + 1 = m
      omega

-- The bits of a fraction

theorem exactly (m : Nat) : Describes (ofMantissaAndAccuracy m .exact) m := by
  simpa [half, ofMantissaAndAccuracy] using exact m false

theorem quotient (m : Nat) {n : Nat} (hn : 0 < n) :
    Describes (ofMantissaAndAccuracy (m / n) (accuracyOfFraction (m % n) n)) (m / n : ℚ) := by
  have hq : (m / n : ℚ) = (m / n : Nat) + (m % n : Nat) / n := by
    have hd : (m : ℚ) = n * (m / n : Nat) + (m % n : Nat) := by
      exact_mod_cast (Nat.div_add_mod m n).symm
    have hn : (n : ℚ) ≠ 0 := by exact_mod_cast hn.ne'
    field_simp
    linarith
  have hlt := Nat.mod_lt m hn
  rw [hq]
  generalize m / n = k, m % n = r at *
  have hn' : (0 : ℚ) < n := by exact_mod_cast hn
  unfold accuracyOfFraction
  split
  case isTrue hr =>
    subst hr
    simpa [half, ofMantissaAndAccuracy] using exact k false
  case isFalse hr =>
    have hr : (0 : ℚ) < r / n := div_pos (by exact_mod_cast Nat.pos_of_ne_zero hr) hn'
    rcases hc : compare (2 * r) n
    case lt =>
      have hlt : (2 * r : ℚ) < n := by exact_mod_cast Nat.compare_eq_lt.mp hc
      have h := above (δ := (r / n : ℚ)) k false hr
        (by rw [div_lt_div_iff₀ hn' (by norm_num)]; linarith)
      simpa [half, ofMantissaAndAccuracy] using h
    case eq =>
      have he : (2 * r : ℚ) = n := by exact_mod_cast Nat.compare_eq_eq.mp hc
      have hh : (r / n : ℚ) = 1 / 2 := by rw [div_eq_div_iff hn'.ne' (by norm_num)]; linarith
      simpa [half, hh, ofMantissaAndAccuracy] using exact k true
    case gt =>
      have hgt : (n : ℚ) < 2 * r := by exact_mod_cast Nat.compare_eq_gt.mp hc
      have hlt : (r : ℚ) < n := by exact_mod_cast hlt
      have h := above (δ := (r / n - 1 / 2 : ℚ)) k true
        (by rw [sub_pos, div_lt_div_iff₀ (by norm_num) hn']; linarith)
        (by rw [sub_lt_iff_lt_add, div_lt_iff₀ hn']; linarith)
      have hx : (k : ℚ) + half true + (r / n - 1 / 2) = k + r / n := by
        simp [half]
      rwa [hx] at h

end Describes

-- Exponents

theorem targetExponent_eq (t : Int) : Format.binary64.targetExponent t = max (t - 53) (-1074) :=
  rfl

theorem totalExponent_eq : totalExponent m e = m.log2 + 1 + e :=
  rfl

-- The mantissa and the exponent of a finite double that is not zero.
structure Canonical (m : Nat) (e : Int) : Prop where
  pos : 0 < m
  lt : m < 2 ^ 53
  le_exponent : -1074 ≤ e
  exponent_le : e ≤ 971
  normal : 2 ^ 52 ≤ m ∨ e = -1074

-- How far below a double, in units of its last place, the numbers are still rounded to it. Doubles
-- are closer to each other below a power of two.
def reach (m : Nat) (e : Int) : ℚ :=
  if m = 2 ^ 52 ∧ -1074 < e then 1 / 4 else 1 / 2

-- The numbers that are rounded to a double, with the ends of the interval if its mantissa is even.
structure Rounds (m : Nat) (e : Int) (v : ℚ) : Prop where
  low : (m - reach m e) * 2 ^ e ≤ v
  high : v ≤ (m + 1 / 2) * 2 ^ e
  tie : v = (m - reach m e) * 2 ^ e ∨ v = (m + 1 / 2) * 2 ^ e → m % 2 = 0

section

variable {μ : Nat} {ε : Int} {acc : Accuracy} {s : Sign}

theorem zpow_le_of_log2 (hx : (μ : ℚ) ≤ v / 2 ^ ε) (hμ : 0 < μ) : (2 : ℚ) ^ (μ.log2 + ε) ≤ v := by
  have hp : (0 : ℚ) < 2 ^ ε := by positivity
  have hl : (2 : ℚ) ^ μ.log2 ≤ μ := by exact_mod_cast Nat.log2_self_le hμ.ne'
  rw [zpow_add₀ (by norm_num), zpow_natCast]
  calc (2 : ℚ) ^ μ.log2 * 2 ^ ε ≤ v / 2 ^ ε * 2 ^ ε := by gcongr; exact hl.trans hx
    _ = v := div_mul_cancel₀ v hp.ne'

theorem lt_zpow_of_log2 (hx : v / 2 ^ ε < (μ : ℚ) + 1) : v < (2 : ℚ) ^ (μ.log2 + 1 + ε) := by
  have hp : (0 : ℚ) < 2 ^ ε := by positivity
  have hl : (μ : ℚ) + 1 ≤ 2 ^ (μ.log2 + 1) := by exact_mod_cast Nat.lt_log2_self
  have he : (2 : ℚ) ^ ((μ.log2 : Int) + 1 + ε) = 2 ^ (μ.log2 + 1) * 2 ^ ε := by
    rw [zpow_add₀ (by norm_num)]
    norm_cast
  rw [he]
  calc v = v / 2 ^ ε * 2 ^ ε := (div_mul_cancel₀ v hp.ne').symm
    _ < ((μ : ℚ) + 1) * 2 ^ ε := by gcongr
    _ ≤ 2 ^ (μ.log2 + 1) * 2 ^ ε := by gcongr

-- The exponent to which a number is rounded leaves it 53 bits, or is the least there is.
structure Target (v : ℚ) (t : Int) : Prop where
  min_le : -1074 ≤ t
  lt : v < 2 ^ (t + 53)
  le : t = -1074 ∨ (2 : ℚ) ^ (t + 52) ≤ v

theorem Target.of_bounds (hl : (μ : ℚ) ≤ v / 2 ^ ε) (hr : v / 2 ^ ε < (μ : ℚ) + 1)
    (hε : ε ≤ Format.binary64.targetExponent (totalExponent μ ε)) :
    Target v (Format.binary64.targetExponent (totalExponent μ ε)) := by
  rw [targetExponent_eq, totalExponent_eq] at *
  generalize ht : max ((μ.log2 : Int) + 1 + ε - 53) (-1074) = t at *
  refine ⟨by omega, ?_, ?_⟩
  · refine (lt_zpow_of_log2 hr).trans_le ?_
    exact zpow_le_zpow_right₀ (by norm_num) (by omega)
  · refine or_iff_not_imp_left.mpr fun hn => ?_
    have hμ : 0 < μ := by
      rw [Nat.pos_iff_ne_zero]
      rintro rfl
      simp only [Nat.log2_zero] at ht
      omega
    refine le_trans ?_ (zpow_le_of_log2 hl hμ)
    exact zpow_le_zpow_right₀ (by norm_num) (by omega)

theorem reach_le (m : Nat) (e : Int) : reach m e ≤ 1 / 2 := by
  unfold reach
  split <;> norm_num

theorem zpow_mul_eq (k : Nat) (e : Int) : (2 : ℚ) ^ (e + k) = 2 ^ k * 2 ^ e := by
  rw [zpow_add₀ (by norm_num), zpow_natCast, mul_comm]

-- That exponent is the one of the double, unless the number is below a power of two.
theorem Rounds.target {t : Int} (hr : Rounds m e v) (hc : Canonical m e) (ht : Target v t) :
    t = e ∨ t = e - 1 ∧ m = 2 ^ 52 ∧ -1074 < e ∧ v ≤ 2 ^ 52 * 2 ^ e := by
  have hp : (0 : ℚ) < 2 ^ e := by positivity
  have hm : (m : ℚ) + 1 ≤ 2 ^ 53 := by exact_mod_cast hc.lt
  have hmin := hc.le_exponent
  have hmin' := ht.min_le
  have hle : t ≤ e := by
    by_contra hn
    have h := ht.le.resolve_left (by omega)
    have h2 : (2 : ℚ) ^ (e + 53) ≤ 2 ^ (t + 52) := zpow_le_zpow_right₀ (by norm_num) (by omega)
    rw [show (53 : Int) = (53 : Nat) from rfl, zpow_mul_eq] at h2
    have h3 := h2.trans (h.trans hr.high)
    have h4 := le_of_mul_le_mul_right h3 hp
    linarith
  rcases hle.eq_or_lt with h | h
  · exact .inl h
  · right
    have hn : (2 : ℚ) ^ 52 ≤ m := by exact_mod_cast hc.normal.resolve_right (by omega)
    have hv : v < 2 ^ 52 * 2 ^ e := by
      refine ht.lt.trans_le ?_
      rw [← zpow_mul_eq]
      exact zpow_le_zpow_right₀ (by norm_num) (by push_cast; omega)
    have hlow := lt_of_mul_lt_mul_right (hr.low.trans_lt hv) hp.le
    have hreach := reach_le m e
    have hm' : m = 2 ^ 52 := by
      have h1 : (m : ℚ) < (2 ^ 52 : Nat) + 1 := by push_cast; linarith
      have h1 : m < 2 ^ 52 + 1 := by exact_mod_cast h1
      have h2 : 2 ^ 52 ≤ m := by exact_mod_cast hn
      omega
    refine ⟨?_, hm', by omega, hv.le⟩
    by_contra hne
    have h5 : v < 2 ^ 51 * 2 ^ e := by
      refine ht.lt.trans_le ?_
      rw [← zpow_mul_eq]
      exact zpow_le_zpow_right₀ (by norm_num) (by push_cast; omega)
    have h6 := lt_of_mul_lt_mul_right (hr.low.trans_lt h5) hp.le
    linarith

theorem mantissa_ofMantissaAndAccuracy : (ofMantissaAndAccuracy μ acc).mantissa = μ := by
  rcases acc with _ | (_ | _ | _) <;> rfl

-- Shifting a mantissa that is not too long changes nothing.
theorem shiftToTargetExponent_exact (hm : m < 2 ^ 53) (he : -1074 ≤ e) :
    shiftToTargetExponent .binary64 m e .exact = (ofMantissaAndAccuracy m .exact, e) := by
  have hl : m.log2 < 53 := by
    rcases Nat.eq_zero_or_pos m with rfl | hp
    · decide
    · exact (Nat.log2_lt hp.ne').mpr hm
  have ht : (Format.binary64.targetExponent (totalExponent m e) - e).toNat = 0 := by
    rw [targetExponent_eq, totalExponent_eq]
    omega
  simp only [shiftToTargetExponent, shiftToExponent, ht]
  exact Prod.ext rfl (by simp)

theorem shiftToTargetExponent_carry (he : -1074 < e) :
    shiftToTargetExponent .binary64 (2 ^ 53) (e - 1) .exact =
      (ofMantissaAndAccuracy (2 ^ 52) .exact, e) := by
  have hl : (2 ^ 53).log2 = 53 := Nat.log2_two_pow
  have ht : (Format.binary64.targetExponent (totalExponent (2 ^ 53) (e - 1)) - (e - 1)).toNat =
      1 := by
    rw [targetExponent_eq, totalExponent_eq, hl]
    omega
  simp only [shiftToTargetExponent, shiftToExponent, ht]
  exact Prod.ext rfl (by simp)

theorem Rounds.roundedMantissa_eq (hr : Rounds m e v) (hd : Describes em (v / 2 ^ e)) :
    em.roundedMantissa = m := by
  have hp : (0 : ℚ) < 2 ^ e := by positivity
  have hreach := reach_le m e
  have hlow : ((m : ℚ) - 1 / 2) * 2 ^ e ≤ (m - reach m e) * 2 ^ e := by gcongr
  refine hd.roundedMantissa_eq ?_ ?_ ?_
  · rw [le_div_iff₀ hp]
    exact hlow.trans hr.low
  · rw [div_le_iff₀ hp]
    exact hr.high
  · rintro (h | h) <;> rw [div_eq_iff hp.ne'] at h
    · exact hr.tie (.inl (le_antisymm (h ▸ hlow) hr.low))
    · exact hr.tie (.inr h)

-- Just below a power of two there is one more bit, which is carried away by the rounding.
theorem Rounds.roundedMantissa_carry (hr : Rounds (2 ^ 52) e v) (he : -1074 < e)
    (hv : v ≤ 2 ^ 52 * 2 ^ e) (hd : Describes em (v / 2 ^ (e - 1))) :
    em.roundedMantissa = 2 ^ 53 := by
  have hp : (0 : ℚ) < 2 ^ e := by positivity
  have hx : v / 2 ^ (e - 1) = v / 2 ^ e * 2 := by
    rw [zpow_sub_one₀ (by norm_num)]
    field_simp
  have hreach : reach (2 ^ 52) e = 1 / 4 := if_pos ⟨rfl, he⟩
  have hlow := hr.low
  rw [hreach, ← le_div_iff₀ hp] at hlow
  rw [← div_le_iff₀ hp] at hv
  rw [hx] at hd
  refine hd.roundedMantissa_eq ?_ ?_ fun _ => by norm_num
  · push_cast at hlow ⊢
    linarith
  · push_cast
    linarith

theorem roundWithAccuracy_of_shift {em : ExtendedMantissa} {t : Int}
    (hs : shiftToTargetExponent .binary64 μ ε acc = (em, t))
    (hf : shiftToTargetExponent .binary64 em.roundedMantissa t .exact =
      (ofMantissaAndAccuracy m .exact, e)) (hm : 0 < m) :
    roundWithAccuracy .binary64 s μ ε acc = .finite s m e hm := by
  unfold roundWithAccuracy
  rw [hs]
  dsimp only
  rw [hf]
  exact dif_neg hm.ne'

theorem roundWithAccuracy_eq (hd : Describes (ofMantissaAndAccuracy μ acc) (v / 2 ^ ε))
    (hε : ε ≤ Format.binary64.targetExponent (totalExponent μ ε)) (hc : Canonical m e)
    (hr : Rounds m e v) : roundWithAccuracy .binary64 s μ ε acc = .finite s m e hc.pos := by
  have ⟨hl, hu⟩ := hd.bounds
  rw [mantissa_ofMantissaAndAccuracy] at hl hu
  have ht := Target.of_bounds hl hu hε
  have hrt := hr.target hc ht
  generalize hte : Format.binary64.targetExponent (totalExponent μ ε) = t at *
  have hs : shiftToTargetExponent .binary64 μ ε acc =
      (ofMantissaAndAccuracy μ acc >>> (t - ε).toNat, t) := by
    simp only [shiftToTargetExponent, shiftToExponent, hte]
    exact Prod.ext rfl (by simp; omega)
  have hd' : Describes (ofMantissaAndAccuracy μ acc >>> (t - ε).toNat) (v / 2 ^ t) := by
    have h := hd.shiftRight (t - ε).toNat
    have he : v / 2 ^ ε / 2 ^ (t - ε).toNat = v / 2 ^ t := by
      rw [div_div, ← zpow_natCast, ← zpow_add₀ (by norm_num)]
      congr
      omega
    rwa [he] at h
  refine roundWithAccuracy_of_shift hs ?_ hc.pos
  obtain rfl | ⟨rfl, rfl, he, hv⟩ := hrt
  · rw [hr.roundedMantissa_eq hd', shiftToTargetExponent_exact hc.lt hc.le_exponent]
  · rw [hr.roundedMantissa_carry he hv hd', shiftToTargetExponent_carry he]

end

-- Division

section

variable {m₁ m₂ : Nat} {e₁ e₂ : Int} {s₁ s₂ : Sign}

theorem log2_add_le (h₁ : 0 < m₁) (h₂ : 0 < m₂) (k : Nat) :
    m₁.log2 + k ≤ (m₁ <<< k / m₂).log2 + m₂.log2 + 1 := by
  by_contra hn
  have hl : m₁.log2 + k = m₁.log2 + k - (m₂.log2 + 1) + (m₂.log2 + 1) := by omega
  generalize m₁.log2 + k - (m₂.log2 + 1) = a at hl
  have hq : 2 ^ a ≤ m₁ <<< k / m₂ := by
    rw [Nat.le_div_iff_mul_le h₂]
    calc 2 ^ a * m₂ ≤ 2 ^ a * 2 ^ (m₂.log2 + 1) := Nat.mul_le_mul_left _ Nat.lt_log2_self.le
      _ = 2 ^ m₁.log2 * 2 ^ k := by rw [← pow_add, ← pow_add, hl]
      _ ≤ m₁ * 2 ^ k := Nat.mul_le_mul_right _ (Nat.log2_self_le h₁.ne')
      _ = m₁ <<< k := (Nat.shiftLeft_eq _ _).symm
  have ha : a ≤ (m₁ <<< k / m₂).log2 :=
    (Nat.le_log2 (Nat.pos_of_ne_zero fun h => by simp [h] at hq).ne').mpr hq
  omega

theorem div_eq (h₁ : 0 < m₁) (h₂ : 0 < m₂) (hc : Canonical m e)
    (hr : Rounds m e (m₁ * 2 ^ e₁ / (m₂ * 2 ^ e₂))) :
    UnpackedFloat.div .binary64 (.finite s₁ m₁ e₁ h₁) (.finite s₂ m₂ e₂ h₂) =
      .finite (s₁ / s₂) m e hc.pos := by
  have hlog := log2_add_le h₁ h₂
  obtain ⟨t, hte⟩ : ∃ t, min (e₁ - e₂) (Format.binary64.targetExponent
    (totalExponent m₁ e₁ - totalExponent m₂ e₂)) = t := ⟨_, rfl⟩
  have hd : divCore .binary64 m₁ e₁ m₂ e₂ = (m₁ <<< (e₁ - e₂ - t).toNat / m₂, t,
      accuracyOfFraction (m₁ <<< (e₁ - e₂ - t).toNat % m₂) m₂) := by
    rw [← hte]
    rfl
  rw [targetExponent_eq, totalExponent_eq, totalExponent_eq] at hte
  show (match divCore .binary64 m₁ e₁ m₂ e₂ with
    | (m, e, acc) => roundWithAccuracy .binary64 (s₁ / s₂) m e acc) = _
  rw [hd]
  refine roundWithAccuracy_eq ?_ ?_ hc hr
  · have hq := Describes.quotient (m₁ <<< (e₁ - e₂ - t).toNat) h₂
    have hx : ((m₁ <<< (e₁ - e₂ - t).toNat : Nat) / m₂ : ℚ) =
        m₁ * 2 ^ e₁ / (m₂ * 2 ^ e₂) / 2 ^ t := by
      have hm : (m₂ : ℚ) ≠ 0 := by exact_mod_cast h₂.ne'
      have he : (2 : ℚ) ^ e₁ = 2 ^ (e₁ - e₂ - t).toNat * 2 ^ e₂ * 2 ^ t := by
        rw [← zpow_natCast, ← zpow_add₀ (by norm_num), ← zpow_add₀ (by norm_num)]
        congr
        omega
      rw [Nat.shiftLeft_eq, he]
      push_cast
      field_simp
    rwa [hx] at hq
  · have hk := hlog (e₁ - e₂ - t).toNat
    rw [targetExponent_eq, totalExponent_eq]
    omega

end

end Rounding
end StepLisp
