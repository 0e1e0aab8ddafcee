import Mathlib.Algebra.Order.Ring.Int
import StepLisp.Calendar

namespace StepLisp

-- The date exists, in a year the calendar covers, and the time is one of its day.
def Moment.Exists (m : Moment) : Prop :=
  Calendar.isValid m.year m.month m.day m.hour m.minute m.second = true

instance (m : Moment) : Decidable m.Exists :=
  inferInstanceAs (Decidable (_ = true))

namespace Calendar

variable {year t : Int} {month : Nat} {m : Moment}

-- Years

def daysInYear (year : Int) : Nat :=
  365 + (isLeap year).toNat

theorem isLeap_iff (year : Int) :
    isLeap year = true ↔ year % 4 = 0 ∧ (year % 100 ≠ 0 ∨ year % 400 = 0) := by
  simp [isLeap]

theorem daysBeforeYear_succ (year : Int) :
    daysBeforeYear (year + 1) = daysBeforeYear year + daysInYear year := by
  have h := isLeap_iff year
  simp only [daysBeforeYear, daysInYear]
  cases hl : isLeap year <;> simp [hl] at h ⊢ <;> omega

theorem daysBeforeYear_add_le (year : Int) (k : Nat) :
    daysBeforeYear year + k ≤ daysBeforeYear (year + k) := by
  induction k
  case zero => simp
  case succ k hi =>
    have hs := daysBeforeYear_succ (year + k)
    rw [show year + (k + 1 : Nat) = year + k + 1 by omega, hs]
    simp only [daysInYear]
    omega

theorem daysBeforeYear_mono {year' : Int} (h : year ≤ year') :
    daysBeforeYear year ≤ daysBeforeYear year' := by
  have := daysBeforeYear_add_le year (year' - year).toNat
  rw [show year + ((year' - year).toNat : Int) = year' by omega] at this
  omega

-- A year by its era of four centuries, its century in it, its group of four years and its place
-- there.
section Era

variable (era : Int) {century group rest : Nat}

theorem daysBeforeYear_era (hc : century ≤ 3) (hg : group ≤ 24) (hr : rest ≤ 3) :
    daysBeforeYear (400 * era + 100 * century + 4 * group + rest + 1) =
      146097 * era + 36524 * century + 1461 * group + 365 * rest := by
  have h₄ : (400 * era + 100 * century + 4 * group + rest) / 4 = 100 * era + 25 * century +
      group := by
    omega
  have h₁₀₀ : (400 * era + 100 * century + 4 * group + rest) / 100 = 4 * era + century := by omega
  have h₄₀₀ : (400 * era + 100 * century + 4 * group + rest) / 400 = era := by omega
  simp only [daysBeforeYear, Int.add_sub_cancel, h₄, h₁₀₀, h₄₀₀]
  omega

theorem isLeap_era (hc : century ≤ 3) (hg : group ≤ 24) (hr : rest ≤ 3) :
    isLeap (400 * era + 100 * century + 4 * group + rest + 1) = true ↔
      rest = 3 ∧ (group < 24 ∨ century = 3) := by
  rw [isLeap_iff]
  omega

end Era

theorem yearOf_spec (n : Int) :
    daysBeforeYear (yearOf n).1 + (yearOf n).2 = n ∧ (yearOf n).2 < daysInYear (yearOf n).1 := by
  simp only [yearOf]
  generalize he : n / 146097 = era
  generalize hd₁ : (n % 146097).toNat = d₁
  generalize hc : min (d₁ / 36524) 3 = century
  generalize hd₂ : d₁ - 36524 * century = d₂
  generalize hg : d₂ / 1461 = group
  generalize hd₃ : d₂ % 1461 = d₃
  generalize hr : min (d₃ / 365) 3 = rest
  have hc₃ : century ≤ 3 := by omega
  have hg₂₄ : group ≤ 24 := by omega
  have hr₃ : rest ≤ 3 := by omega
  have hl := isLeap_era era hc₃ hg₂₄ hr₃
  rw [daysBeforeYear_era era hc₃ hg₂₄ hr₃, daysInYear]
  refine ⟨by omega, ?_⟩
  cases h : isLeap (400 * era + 100 * century + 4 * group + rest + 1) <;> simp [h] at hl ⊢ <;> omega

theorem yearOf_eq_iff {n : Int} {d : Nat} :
    yearOf n = (year, d) ↔ daysBeforeYear year + d = n ∧ d < daysInYear year := by
  obtain ⟨hn, hd⟩ := yearOf_spec n
  constructor
  case mp =>
    intro h
    rw [h] at hn hd
    exact ⟨hn, hd⟩
  case mpr =>
    intro ⟨hn', hd'⟩
    have hs := daysBeforeYear_succ year
    have hs' := daysBeforeYear_succ (yearOf n).1
    have hy : (yearOf n).1 = year := by
      -- Of two different years one is over before the other starts.
      rcases Int.lt_trichotomy (yearOf n).1 year with h | h | h
      case inl => have := daysBeforeYear_mono (Int.add_one_le_of_lt h); omega
      case inr.inl => exact h
      case inr.inr => have := daysBeforeYear_mono (Int.add_one_le_of_lt h); omega
    rw [hy] at hn
    exact Prod.ext hy (by omega)

-- Months

theorem daysBeforeMonth_eq (month : Nat) :
    daysBeforeMonth year month = ((months year).take (month - 1)).sum :=
  List.sum_eq_foldl.symm

theorem sum_months : (months year).sum = daysInYear year := by
  cases h : isLeap year <;> simp [months, daysInYear, h]

theorem monthOf_eq {lengths : List Nat} {first i d : Nat} (hd : d < lengths.getD i 0) :
    monthOf lengths first ((lengths.take i).sum + d) = (first + i, d + 1) := by
  induction lengths generalizing first i
  case nil => simp at hd
  case cons length rest hi =>
    cases i
    case zero =>
      simp at hd
      simp [monthOf, hd]
    case succ i =>
      have hs : ((length :: rest).take (i + 1)).sum + d = length + ((rest.take i).sum + d) := by
        rw [List.take_succ_cons, List.sum_cons, Nat.add_assoc]
      rw [hs, monthOf, if_neg (by omega), Nat.add_sub_cancel_left, hi (by simpa using hd),
        Nat.add_right_comm, Nat.add_assoc]

-- A day below the sum of the lengths falls into one of the months.
theorem exists_month {lengths : List Nat} {n : Nat} (h : n < lengths.sum) :
    ∃ i d, d < lengths.getD i 0 ∧ (lengths.take i).sum + d = n := by
  induction lengths generalizing n
  case nil => simp at h
  case cons length rest hi =>
    by_cases hn : n < length
    case pos => exact ⟨0, n, by simpa using hn, by simp⟩
    case neg =>
      simp only [List.sum_cons] at h
      obtain ⟨i, d, hd, hs⟩ := hi (n := n - length) (by omega)
      exact ⟨i + 1, d, by simpa using hd, by simp; omega⟩

theorem monthOf_eq_iff {yearDay month day : Nat} (h : yearDay < daysInYear year) :
    monthOf (months year) 1 yearDay = (month, day) ↔
      1 ≤ day ∧ day ≤ daysInMonth year month ∧ daysBeforeMonth year month + (day - 1) =
        yearDay := by
  rw [daysBeforeMonth_eq]
  constructor
  case mp =>
    intro hm
    obtain ⟨i, d, hd, hs⟩ := exists_month (sum_months ▸ h)
    rw [← hs, monthOf_eq hd] at hm
    cases hm
    refine ⟨by omega, ?_, ?_⟩
    case refine_1 => simpa [daysInMonth, Nat.succ_le_iff] using hd
    case refine_2 => simpa using hs
  case mpr =>
    intro ⟨hd, hl, hs⟩
    have hm : month ≠ 0 := by
      rintro rfl
      simp [daysInMonth] at hl
      omega
    rw [daysInMonth, if_neg hm] at hl
    rw [← hs, monthOf_eq (by omega)]
    exact Prod.ext (by simp; omega) (by simp; omega)

theorem sum_take_add_getD_le (lengths : List Nat) (i : Nat) :
    (lengths.take i).sum + lengths.getD i 0 ≤ lengths.sum := by
  induction lengths generalizing i
  case nil => simp
  case cons length rest hi =>
    cases i
    case zero => simp
    case succ i =>
      have := hi i
      simp only [List.take_succ_cons, List.sum_cons, List.getD_cons_succ]
      omega

theorem daysBeforeMonth_add_lt {day : Nat} (h₁ : 1 ≤ day) (h₂ : day ≤ daysInMonth year month) :
    daysBeforeMonth year month + (day - 1) < daysInYear year := by
  have hs := sum_take_add_getD_le (months year) (month - 1)
  rw [← daysBeforeMonth_eq, sum_months] at hs
  unfold daysInMonth at h₂
  split at h₂ <;> omega

theorem month_mem_of_daysInMonth (h : 1 ≤ daysInMonth year month) : 1 ≤ month ∧ month ≤ 12 := by
  unfold daysInMonth at h
  split at h
  case isTrue => omega
  case isFalse h0 =>
    refine ⟨by omega, Nat.le_of_not_lt fun hn => ?_⟩
    rw [List.getD_eq_getElem?_getD, List.getElem?_eq_none (by simp [months]; omega)] at h
    cases h

theorem daysInMonth_le : daysInMonth year month ≤ 31 := by
  have hall : ∀ length ∈ months year, length ≤ 31 := by
    cases h : isLeap year <;> simp [months, h]
  unfold daysInMonth
  split
  case isTrue => omega
  case isFalse =>
    rw [List.getD_eq_getElem?_getD]
    cases hl : (months year)[month - 1]?
    case none => simp
    case some => simpa using hall _ (List.mem_of_getElem? hl)

-- Moments

theorem exists_iff : m.Exists ↔
    (firstYear ≤ m.year ∧ m.year ≤ lastYear) ∧ (1 ≤ m.day ∧ m.day ≤ daysInMonth m.year m.month) ∧
      m.hour < 24 ∧ m.minute < 60 ∧ m.second < 60 := by
  simp only [Moment.Exists, isValid, Bool.and_eq_true, decide_eq_true_eq, and_assoc]

-- The moment of a timestamp is the one moment of the calendar with that timestamp.
theorem moment?_eq_some_iff :
    moment? t = some m ↔ m.Exists ∧ timestamp m = t := by
  rw [exists_iff]
  constructor
  case mp =>
    intro h
    cases hy : yearOf (t / 86400 + epochDay) with | mk year yearDay
    obtain ⟨hn, hd⟩ := yearOf_eq_iff.mp hy
    simp only [moment?, hy] at h
    split at h
    case isTrue => cases h
    case isFalse hr =>
      cases hm : monthOf (months year) 1 yearDay with | mk month day
      obtain ⟨hd₁, hd₂, hs⟩ := (monthOf_eq_iff hd).mp hm
      rw [hm] at h
      cases h
      refine ⟨⟨by simp only; omega, ⟨hd₁, hd₂⟩, by simp only; omega⟩, ?_⟩
      simp only [timestamp, dayNumber]
      omega
  case mpr =>
    rintro ⟨⟨hr, ⟨hd₁, hd₂⟩, ht⟩, rfl⟩
    have hl := daysBeforeMonth_add_lt hd₁ hd₂
    have hq : timestamp m / 86400 + epochDay =
        daysBeforeYear m.year + (daysBeforeMonth m.year m.month + (m.day - 1) : Nat) := by
      simp only [timestamp, dayNumber]
      omega
    have hs : (timestamp m % 86400).toNat = 3600 * m.hour + 60 * m.minute + m.second := by
      simp only [timestamp]
      omega
    have hh : (3600 * m.hour + 60 * m.minute + m.second) / 3600 = m.hour := by omega
    have hm : (3600 * m.hour + 60 * m.minute + m.second) / 60 % 60 = m.minute := by omega
    have hs' : (3600 * m.hour + 60 * m.minute + m.second) % 60 = m.second := by omega
    simp only [moment?, hq, yearOf_eq_iff.mpr ⟨rfl, hl⟩,
      (monthOf_eq_iff hl).mpr ⟨hd₁, hd₂, rfl⟩, hs,
      hh, hm, hs']
    rw [if_neg (by omega)]

theorem moment?_eq_none_iff : moment? t = none ↔ ∀ m : Moment, m.Exists → timestamp m ≠ t := by
  simp only [Option.eq_none_iff_forall_ne_some, ne_eq, moment?_eq_some_iff, not_and]

-- A moment can be told in far fewer than 64 bits.
theorem natAbs_timestamp_lt (h : m.Exists) : (timestamp m).natAbs < 2 ^ 53 := by
  obtain ⟨⟨hy, hy'⟩, ⟨hd, hd'⟩, ht⟩ := exists_iff.mp h
  have hlow : daysBeforeYear firstYear ≤ daysBeforeYear m.year := daysBeforeYear_mono hy
  have hhigh : daysBeforeYear m.year ≤ daysBeforeYear lastYear := daysBeforeYear_mono hy'
  have hfirst : daysBeforeYear firstYear = -95746130 := by decide
  have hlast : daysBeforeYear lastYear = 95745034 := by decide
  have hday := daysBeforeMonth_add_lt hd hd'
  have hyear : daysInYear m.year ≤ 366 := Nat.add_le_add_left (Bool.toNat_le _) 365
  simp only [timestamp, dayNumber, epochDay]
  omega

end Calendar
end StepLisp
