import Mathlib.Tactic.Zify
import StepLisp.Decimal.Shortest
import StepLisp.Proofs.Decimal.Rounding

namespace StepLisp

open Rounding

namespace Decimal

variable {i : Interval} {m n c den unit num : Nat} {e k : Int} {v : ℚ}

namespace Interval

structure Covers (i : Interval) (v : ℚ) : Prop where
  low : i.low ≤ v
  high : v ≤ i.high
  tie : v = i.low ∨ v = i.high → i.closed

theorem contains_iff : i.contains n ↔ i.Covers n := by
  have hl : (n : ℚ) = i.low ↔ n = i.low := Nat.cast_inj
  have hr : (n : ℚ) = i.high ↔ n = i.high := Nat.cast_inj
  constructor
  case mp =>
    intro h
    unfold contains at h
    split at h <;> simp only [Bool.and_eq_true, decide_eq_true_eq] at h
    case isTrue hc => exact ⟨Nat.cast_le.mpr h.1, Nat.cast_le.mpr h.2, fun _ => hc⟩
    case isFalse =>
      refine ⟨Nat.cast_le.mpr h.1.le, Nat.cast_le.mpr h.2.le, fun ht => ?_⟩
      rw [hl, hr] at ht
      omega
  case mpr =>
    intro ⟨h1, h2, h3⟩
    rw [hl, hr] at h3
    have h1 := Nat.cast_le.mp h1
    have h2 := Nat.cast_le.mp h2
    unfold contains
    split <;> simp only [Bool.and_eq_true, decide_eq_true_eq]
    case isTrue => exact ⟨h1, h2⟩
    case isFalse hc =>
      have := mt h3 hc
      omega

theorem Covers.of_scale (hc : 0 < c) (h : (i.scale c).Covers v) : i.Covers (v / c) := by
  have hc : (0 : ℚ) < c := Nat.cast_pos.mpr hc
  have hl : ((i.scale c).low : ℚ) = i.low * c := Nat.cast_mul ..
  have hh : ((i.scale c).high : ℚ) = i.high * c := Nat.cast_mul ..
  have ⟨h1, h2, h3⟩ := h
  rw [hl] at h1
  rw [hh] at h2
  rw [hl, hh] at h3
  refine ⟨(le_div_iff₀ hc).mpr h1, (div_le_iff₀ hc).mpr h2, fun h => h3 ?_⟩
  rwa [div_eq_iff hc.ne', div_eq_iff hc.ne'] at h

theorem nearest?_contains (h : i.nearest? unit = some n) : i.contains (n * unit) := by
  unfold nearest? at h
  dsimp only at h
  split at h
  case isTrue hb =>
    rw [Bool.and_eq_true] at hb
    split at h <;> cases h
    case isTrue => exact hb.1
    case isFalse => exact hb.2
  case isFalse =>
    split at h
    case isTrue hb =>
      cases h
      exact hb
    case isFalse =>
      split at h <;> cases h
      case isTrue hb => exact hb

theorem nearest?_isSome_of_contains (h : i.contains (i.middle / unit * unit) ∨
    i.contains ((i.middle / unit + 1) * unit)) : (i.nearest? unit).isSome := by
  unfold nearest?
  dsimp only
  split
  case isTrue => split <;> rfl
  case isFalse =>
    split
    case isTrue => rfl
    case isFalse hb => rw [if_pos (h.resolve_left hb)]; rfl

theorem contains_of_lt (hl : i.low < n) (hh : n < i.high) : i.contains n := by
  unfold contains
  split <;> simp only [Bool.and_eq_true, decide_eq_true_eq] <;> omega

-- One of two neighbours is inside if the ends are farther from each other than they are.
theorem nearest?_isSome (hu : 0 < unit) (hl : i.low < i.middle) (hh : i.middle < i.high)
    (h : i.low + unit < i.high) : (i.nearest? unit).isSome := by
  apply nearest?_isSome_of_contains
  have hle := Nat.div_mul_le_self i.middle unit
  have hgt := Nat.lt_div_mul_add (a := i.middle) hu
  rw [Nat.succ_mul]
  by_cases hn : i.low < i.middle / unit * unit
  · exact .inl <| contains_of_lt hn (by omega)
  · exact .inr <| contains_of_lt (by omega) (by omega)

end Interval

-- The grid of the multiples of a power of ten, on a scale on which it is whole.

def grid (i : Interval) (e : Int) : Interval :=
  if 0 ≤ e then i else i.scale (10 ^ (-e).toNat)

def mesh (den : Nat) (e : Int) : Nat :=
  if 0 ≤ e then den * 10 ^ e.toNat else den

theorem search_succ (i : Interval) (den : Nat) (k : Int) (count fuel : Nat) :
    search i den k count (fuel + 1) =
      match (grid i (k - count)).nearest? (mesh den (k - count)) with
      | some n => if n = 10 ^ count then ⟨1, k⟩ else ⟨n, k - count⟩
      | none => search i den k (count + 1) fuel :=
  rfl

def value (d : Decimal) : ℚ :=
  d.digits * 10 ^ d.exponent

theorem covers_of_grid (h : (grid i e).contains (n * mesh den e)) :
    i.Covers (value ⟨n, e⟩ * den) := by
  have h := Interval.contains_iff.mp h
  unfold grid mesh at h
  by_cases he : 0 ≤ e
  · rw [if_pos he, if_pos he] at h
    have hv : value ⟨n, e⟩ * den = (n * (den * 10 ^ e.toNat) : Nat) := by
      have hz : (10 : ℚ) ^ e = 10 ^ e.toNat := by rw [← zpow_natCast, Int.toNat_of_nonneg he]
      simp only [value, hz]
      push_cast
      ring
    rwa [hv]
  · rw [if_neg he, if_neg he] at h
    have hv : value ⟨n, e⟩ * den = (n * den : Nat) / (10 ^ (-e).toNat : Nat) := by
      have hz : (10 : ℚ) ^ e = (10 ^ (-e).toNat)⁻¹ := by
        rw [← zpow_natCast, Int.toNat_of_nonneg (by omega), zpow_neg, inv_inv]
      simp only [value, hz]
      push_cast
      ring
    rw [hv]
    exact h.of_scale (by positivity)

theorem search_covers (last : Nat) {count fuel : Nat} (hf : count + fuel = last + 1)
    (hc : count ≤ last)
    (hl : ((grid i (k - last)).nearest? (mesh den (k - last))).isSome) :
    i.Covers ((search i den k count fuel).value * den) := by
  induction fuel generalizing count
  case zero => omega
  case succ fuel hi =>
    rw [search_succ]
    split
    case h_1 n hn =>
      have h := covers_of_grid (Interval.nearest?_contains hn)
      split
      case isTrue ht =>
        have hv : value ⟨1, k⟩ = value ⟨n, k - count⟩ := by
          simp only [value, ht]
          push_cast
          rw [← zpow_natCast, ← zpow_add₀ (by norm_num), one_mul]
          congr 1
          omega
        rwa [hv]
      case isFalse => exact h
    case h_2 hn =>
      have hne : count ≠ last := by
        rintro rfl
        rw [hn] at hl
        cases hl
      exact hi (by omega) (by omega)

-- The leading digit

theorem lt_pow_digitCount (n : Nat) : n < 10 ^ digitCount n :=
  (Nat.length_toDigits_le_iff (by norm_num) Nat.length_toDigits_pos).mp le_rfl

theorem pow_digitCount_le (hn : 0 < n) : 10 ^ (digitCount n - 1) ≤ n := by
  by_contra h
  have hp : 0 < digitCount n := Nat.length_toDigits_pos
  rcases Nat.eq_zero_or_pos (digitCount n - 1) with h0 | h0
  · rw [h0] at h
    omega
  · have := (Nat.length_toDigits_le_iff (by norm_num) h0).mpr (not_le.mp h)
    change digitCount n ≤ _ at this
    omega

theorem magnitude_le (hn : 0 < num) (hd : 0 < den) :
    (den * 10 ^ (magnitude num den - 1) : ℚ) ≤ num := by
  unfold magnitude
  split
  case isTrue h =>
    have hq : 0 < num / den := Nat.div_pos h hd
    have hp : 0 < digitCount (num / den) := Nat.length_toDigits_pos
    have hle : den * 10 ^ (digitCount (num / den) - 1) ≤ num :=
      (Nat.mul_le_mul_left _ (pow_digitCount_le hq)).trans (Nat.mul_div_le num den)
    have hz : (digitCount (num / den) : Int) - 1 = (digitCount (num / den) - 1 : Nat) := by omega
    rw [hz, zpow_natCast]
    exact_mod_cast hle
  case isFalse h =>
    have hp : 0 < digitCount (den / num) := Nat.length_toDigits_pos
    have hlt : den < num * 10 ^ digitCount (den / num) := by
      rw [Nat.mul_comm]
      exact (Nat.div_lt_iff_lt_mul hn).mp (lt_pow_digitCount _)
    have key {d : Nat} (h : den ≤ num * 10 ^ d) : (den * 10 ^ (-d : Int) : ℚ) ≤ num := by
      rw [zpow_neg, zpow_natCast, ← div_eq_mul_inv, div_le_iff₀ (by positivity)]
      exact_mod_cast h
    dsimp only
    split
    case isTrue h =>
      have hz : 2 - (digitCount (den / num) : Int) - 1 = -(digitCount (den / num) - 1 : Nat) := by
        omega
      rw [hz]
      exact key h
    case isFalse =>
      have hz : 1 - (digitCount (den / num) : Int) - 1 = -digitCount (den / num) := by omega
      rw [hz]
      exact key hlt.le

-- Seventeen digits

theorem nearest?_scale_isSome (hm : Canonical m e) (hc : 0 < c) (hu : 0 < unit)
    (h : unit * 10 ^ 16 ≤ 4 * m * c) : (((interval m e).scale c).nearest? unit).isSome := by
  have hlt := hm.lt
  have hpos := hm.pos
  apply Interval.nearest?_isSome hu
  all_goals simp only [interval, Interval.scale]
  · exact Nat.mul_lt_mul_of_pos_right (by split <;> omega) hc
  · exact Nat.mul_lt_mul_of_pos_right (by omega) hc
  · -- Just below a power of two the interval is shorter, but so is the mantissa.
    split
    case isTrue hm =>
      obtain ⟨rfl, _⟩ := hm
      omega
    case isFalse =>
      have hu : unit < 4 * c := by
        by_contra hn
        have : 4 * c * 10 ^ 16 ≤ 4 * m * c := (Nat.mul_le_mul_right _ (not_lt.mp hn)).trans h
        have : 10 ^ 16 * (4 * c) ≤ m * (4 * c) := by linarith
        have := Nat.le_of_mul_le_mul_right this (by omega)
        omega
      rw [Nat.sub_mul, Nat.add_mul]
      have : 4 * 1 * c ≤ 4 * m * c := Nat.mul_le_mul_right _ (Nat.mul_le_mul_left _ hpos)
      omega

theorem two_pow_sub (e : Int) :
    ((2 ^ (e - 2).toNat : Nat) : ℚ) = 2 ^ e / 4 * (2 ^ (2 - e).toNat : Nat) := by
  have hz : (2 : ℚ) ^ e / 4 = 2 ^ (e - 2) := by
    rw [zpow_sub₀ (by norm_num)]
    norm_num
  rw [hz]
  push_cast
  rw [← zpow_natCast, ← zpow_natCast, ← zpow_add₀ (by norm_num)]
  congr 1
  omega

theorem rounds_of_covers (hm : 0 < m)
    (h : ((interval m e).scale (2 ^ (e - 2).toNat)).Covers (v * (2 ^ (2 - e).toNat : Nat))) :
    Rounds m e v := by
  have h := h.of_scale (by positivity)
  have hv : v * (2 ^ (2 - e).toNat : Nat) / (2 ^ (e - 2).toNat : Nat) = 4 * v / 2 ^ e := by
    rw [two_pow_sub]
    field_simp
  have hp : (0 : ℚ) < 2 ^ e := by positivity
  have hl : ((interval m e).low : ℚ) = 4 * (m - reach m e) := by
    have hr : reach m e = if m = 0x10000000000000 ∧ -1074 < e then 1 / 4 else 1 / 2 := rfl
    rw [hr]
    unfold interval
    split <;> rw [Nat.cast_sub (by omega)] <;> push_cast <;> ring
  have hh : ((interval m e).high : ℚ) = 4 * (m + 1 / 2) := by
    simp only [interval]
    push_cast
    ring
  have ⟨h1, h2, h3⟩ := h
  rw [hv] at h1 h2 h3
  rw [hl] at h1 h3
  rw [hh] at h2 h3
  rw [le_div_iff₀ hp] at h1
  rw [div_le_iff₀ hp] at h2
  rw [div_eq_iff hp.ne', div_eq_iff hp.ne'] at h3
  refine ⟨by linarith, by linarith, fun ht => ?_⟩
  have hc := h3 (ht.imp (fun h => by linarith) fun h => by linarith)
  simpa [interval] using hc

theorem mesh_le (h : (den * 10 ^ (k - 1) : ℚ) ≤ num) :
    mesh den (k - 17) * 10 ^ 16 ≤ num * if 0 ≤ k - 17 then 1 else 10 ^ (-(k - 17)).toNat := by
  unfold mesh
  split
  case isTrue hk =>
    have hz : (10 : ℚ) ^ (k - 1) = 10 ^ (k - 17).toNat * 10 ^ 16 := by
      rw [← zpow_natCast, ← zpow_natCast, ← zpow_add₀ (by norm_num)]
      congr 1
      omega
    rw [hz, ← mul_assoc] at h
    rw [Nat.mul_one]
    exact_mod_cast h
  case isFalse hk =>
    have hz : (10 : ℚ) ^ 16 = 10 ^ (k - 1) * 10 ^ (-(k - 17)).toNat := by
      rw [← zpow_natCast, ← zpow_natCast, ← zpow_add₀ (by norm_num)]
      congr 1
      omega
    have h : (den * 10 ^ 16 : ℚ) ≤ num * 10 ^ (-(k - 17)).toNat := by
      rw [hz, ← mul_assoc]
      gcongr
    exact_mod_cast h

theorem grid_scale : grid (i.scale c) e = i.scale (c * if 0 ≤ e then 1 else 10 ^ (-e).toNat) := by
  unfold grid
  split
  case isTrue => rw [Nat.mul_one]
  case isFalse => simp only [Interval.scale, Nat.mul_assoc]

theorem nearest?_last_isSome (h : Canonical m e) (hc : 0 < c) (hd : 0 < den)
    (hk : (den * 10 ^ (k - 1) : ℚ) ≤ (4 * m * c : Nat)) :
    ((grid ((interval m e).scale c) (k - (17 : Nat))).nearest?
      (mesh den (k - (17 : Nat)))).isSome := by
  have hle := mesh_le hk
  rw [Nat.mul_assoc] at hle
  rw [grid_scale]
  refine nearest?_scale_isSome h ?_ ?_ hle
  · split <;> positivity
  · unfold mesh
    split <;> positivity

-- The shortest decimal of a double lies among the numbers that are rounded to it.
theorem shortest_rounds (h : Canonical m e) : Rounds m e (shortest m e).value := by
  have hpos := h.pos
  have hn : 0 < 4 * m * 2 ^ (e - 2).toNat := by positivity
  have hd : 0 < 2 ^ (2 - e).toNat := by positivity
  exact rounds_of_covers hpos <| search_covers 17 rfl (by norm_num) <|
    nearest?_last_isSome h (by positivity) hd (magnitude_le hn hd)

theorem shortest_digits_pos (h : Canonical m e) : 0 < (shortest m e).digits := by
  have hlow := (shortest_rounds h).low
  have hm : (1 : ℚ) ≤ m := by exact_mod_cast h.pos
  have hreach := reach_le m e
  have hp : (0 : ℚ) < (m - reach m e) * 2 ^ e := mul_pos (by linarith) (by positivity)
  refine Nat.pos_of_ne_zero fun h0 => ?_
  rw [value, h0, Nat.cast_zero, zero_mul] at hlow
  linarith

end Decimal
end StepLisp
