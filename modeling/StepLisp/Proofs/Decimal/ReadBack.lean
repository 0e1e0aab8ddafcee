import StepLisp.Proofs.Decimal.Scientific
import StepLisp.Proofs.Decimal.Shortest
import StepLisp.Proofs.Text.Numeral

namespace StepLisp

open Rounding

namespace Numeral

variable {c : Char} {cs cs' : List Char} {m n : Nat}

theorem toLower_of_isDigit (h : isDigit c) : c.toLower = c := by
  simp only [isDigit, Bool.and_eq_true, decide_eq_true_eq] at h
  have hc : c.toNat ≤ 57 := UInt32.le_iff_toNat_le.mp h.2
  have hn : ¬('A'.val ≤ c.val ∧ c.val ≤ 'Z'.val) := fun hu =>
    absurd (UInt32.le_iff_toNat_le.mp hu.left) (by change ¬65 ≤ c.toNat; omega)
  exact dif_neg hn

-- No digit begins the name of an infinity or of what is not a number.
theorem special?_of_isDigit (h : isDigit c) : special? (c :: cs) = none := by
  have hne {d : Char} {ds : List Char} (hd : isDigit d = false) :
      String.ofList ((c :: cs).map Char.toLower) ≠ String.ofList (d :: ds) := by
    intro he
    have hc := String.ofList_injective he
    rw [List.map_cons, toLower_of_isDigit h] at hc
    cases hc
    rw [h] at hd
    cases hd
  unfold special?
  split
  case h_1 he => exact absurd he (hne (d := 'i') rfl)
  case h_2 he => exact absurd he (hne (d := 'i') rfl)
  case h_3 he => exact absurd he (hne (d := 'n') rfl)
  case h_4 => rfl

theorem span_isDigit (hd : ∀ c ∈ cs, isDigit c) (h : ∀ c ∈ cs'.head?, isDigit c = false) :
    (cs ++ cs').span isDigit = (cs, cs') := by
  rw [List.span_eq_takeWhile_dropWhile, List.takeWhile_append_of_pos hd,
    List.dropWhile_append_of_pos hd]
  cases cs'
  case nil => simp
  case cons c _ => simp [h c rfl]

theorem magnitude?_point (hn : cs ≠ []) (hn' : cs' ≠ []) (hd : ∀ c ∈ cs, isDigit c)
    (hd' : ∀ c ∈ cs', isDigit c) : magnitude? (cs ++ '.' :: cs') =
      some (Float.ofScientific (valueOf (cs ++ cs')) true cs'.length) := by
  have hs : (cs ++ '.' :: cs').span isDigit = (cs, '.' :: cs') :=
    span_isDigit hd fun c hc => by cases hc; rfl
  have hs' : (cs' ++ []).span isDigit = (cs', []) := span_isDigit hd' fun _ hc => by cases hc
  rw [List.append_nil] at hs'
  have hl : ¬0 ≤ (0 : Int) - cs'.length := by
    have := List.length_pos_of_ne_nil hn'
    omega
  have hl' : (-((0 : Int) - cs'.length)).toNat = cs'.length := by omega
  have he : (cs.isEmpty && cs'.isEmpty) = false := by simp [hn]
  simp only [magnitude?, hs, hs', he, exponent?, scientific]
  rw [if_neg (by decide), Option.map_some, if_neg hl, hl']

theorem float?_point (negative : Bool) (hn : cs ≠ []) (hn' : cs' ≠ []) (hd : ∀ c ∈ cs, isDigit c)
    (hd' : ∀ c ∈ cs', isDigit c) :
    float? ((if negative then ['-'] else []) ++ (cs ++ '.' :: cs')) =
      some (signed negative (Float.ofScientific (valueOf (cs ++ cs')) true cs'.length)) := by
  have hm := magnitude?_point hn hn' hd hd'
  have ⟨c, ds, hc⟩ := List.exists_cons_of_ne_nil hn
  have hsp : special? (cs ++ '.' :: cs') = none := by
    rw [hc]
    exact special?_of_isDigit (hd c (hc ▸ List.mem_cons_self))
  have hs : splitSign ((if negative then ['-'] else []) ++ (cs ++ '.' :: cs')) =
      (negative, cs ++ '.' :: cs') := by
    cases negative
    case true => rfl
    case false =>
      rw [hc]
      exact splitSign_of_isDigit (hd c (hc ▸ List.mem_cons_self))
  simp [float?, hs, hsp, hm, signed]

-- A whole number gets a point before it is read.
def pointed (cs : List Char) : List Char :=
  if '.' ∈ cs then cs else cs ++ ['.', '0']

theorem Positional.float? (negative : Bool) (h : Positional cs m n) :
    ∃ k p : Nat, 0 < p ∧ (k / 10 ^ p : ℚ) = m / 10 ^ n ∧
      float? ((if negative then ['-'] else []) ++ pointed cs) =
        some (signed negative (Float.ofScientific k true p)) := by
  cases h
  case whole hn hd =>
    have hp : pointed cs = cs ++ '.' :: ['0'] := if_neg fun h => absurd (hd _ h) (by decide)
    have hv : valueOf (cs ++ ['0']) = valueOf cs * 10 ^ 1 := valueOf_append_zeros (n := 1)
    have hf := float?_point negative hn (List.cons_ne_nil '0' []) hd
      (List.forall_mem_singleton.mpr rfl)
    rw [← hp] at hf
    refine ⟨_, _, Nat.one_pos, ?_, hf⟩
    rw [hv]
    push_cast
    ring
  case point cs cs' hn hn' hd hd' =>
    have hp : pointed (cs ++ '.' :: cs') = cs ++ '.' :: cs' := if_pos (by simp)
    have hf := float?_point negative hn hn' hd hd'
    rw [← hp] at hf
    exact ⟨_, _, List.length_pos_of_ne_nil hn', rfl, hf⟩

end Numeral

open Numeral

variable {x : Float} {negative : Bool} {m : Nat} {e : Int}

theorem Style.toList_floatText {t : String} (h : Binary64.ofFloat x = .finite negative m e)
    (ht : (if m = 0 then "0" else (Decimal.shortest m e).toText) = t) :
    (floatText x).toList = (if negative then ['-'] else []) ++ pointed t.toList := by
  unfold floatText
  rw [h]
  simp only [Binary64.toText, ht, pointed]
  cases negative
  case false =>
    simp only [Bool.false_eq_true, if_false, List.contains_iff_mem, List.nil_append]
    split
    case isTrue => rfl
    case isFalse => rw [String.toList_append]; rfl
  case true =>
    have hs : ("-" ++ t).toList = '-' :: t.toList := String.toList_append
    have hp : '.' ∈ '-' :: t.toList ↔ '.' ∈ t.toList := by simp
    simp only [if_true, List.contains_iff_mem, hs, hp, List.singleton_append]
    split
    case isTrue => exact hs
    case isFalse => rw [String.toList_append, hs]; rfl

theorem Decimal.float?_shortest (h : Binary64.ofFloat x = .finite negative m e) (hm : 0 < m) :
    float? ((if negative then ['-'] else []) ++ pointed (shortest m e).toText.toList) = some x := by
  have hc := Binary64.canonical h hm
  obtain ⟨n, he, hp⟩ := positional_toText (shortest m e)
  obtain ⟨k, p, hp, hv, hf⟩ := hp.float? negative
  have hr : (k / 10 ^ p : ℚ) = (shortest m e).value := by
    have hz : (10 : ℚ) ^ ((shortest m e).exponent + n).toNat =
        10 ^ (shortest m e).exponent * 10 ^ n := by
      rw [← zpow_natCast, Int.toNat_of_nonneg he, zpow_add₀ (by norm_num), zpow_natCast]
    rw [hv, value]
    push_cast
    rw [hz, ← mul_assoc, mul_div_cancel_right₀ _ (by positivity)]
  have hk : 0 < k := by
    have hd : (0 : ℚ) < (shortest m e).digits := by exact_mod_cast shortest_digits_pos hc
    have hpos : (0 : ℚ) < (shortest m e).value := mul_pos hd (by positivity)
    rw [← hr, div_pos_iff_of_pos_right (by positivity)] at hpos
    exact_mod_cast hpos
  rw [hf, signed_ofScientific_eq h hm hk hp (hr ▸ shortest_rounds hc)]

-- A finite double is read back from its text.
theorem Style.float?_floatText (h : (Binary64.ofFloat x).isFinite) :
    float? (floatText x).toList = some x := by
  generalize hd : Binary64.ofFloat x = d at h
  cases d
  case nan | infinite => cases h
  case finite negative m e =>
    rcases Nat.eq_zero_or_pos m with rfl | hm
    · have hz : ∀ c ∈ ['0'], isDigit c := List.forall_mem_singleton.mpr rfl
      have hf := float?_point negative (List.cons_ne_nil '0' []) (List.cons_ne_nil '0' []) hz hz
      rw [toList_floatText hd (if_pos rfl)]
      exact hf.trans <| congrArg some (signed_zero_eq hd)
    · rw [toList_floatText hd (if_neg hm.ne')]
      exact Decimal.float?_shortest hd hm

end StepLisp
