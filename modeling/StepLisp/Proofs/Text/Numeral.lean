import Mathlib.Algebra.Group.Nat.Hom
import Mathlib.Tactic.Common
import StepLisp.Printer

namespace StepLisp

namespace Numeral

variable {c : Char} {cs cs' : List Char} {m n : Nat}

theorem isDigit_eq : isDigit c = c.isDigit := by
  simp [isDigit, Char.isDigit, Char.le_def]

theorem isDigit_of_mem_toDigits (h : c ∈ Nat.toDigits 10 n) : isDigit c := by
  rw [isDigit_eq]
  exact Nat.isDigit_of_mem_toDigits (by decide) (by decide) h

-- What numbers are written with.
def isFigure (c : Char) : Bool :=
  isDigit c || c = '.' || c = '-'

theorem isDelimiter_of_isFigure (h : isFigure c) : Reader.isDelimiter c = false := by
  rw [← Bool.not_eq_true]
  intro hd
  simp only [Reader.isDelimiter, Reader.isBlank, Bool.or_eq_true, decide_eq_true_eq, or_assoc] at hd
  rcases hd with rfl | rfl | rfl | rfl | rfl | rfl | rfl | rfl | rfl | rfl | rfl | rfl <;> cases h

theorem isAlpha_of_isFigure (h : isFigure c) : c.isAlpha = false := by
  simp only [isFigure, isDigit, Bool.or_eq_true, Bool.and_eq_true, decide_eq_true_eq] at h
  rcases h with (⟨_, h⟩ | rfl) | rfl
  case inl.inl =>
    have hc : c.toNat ≤ 57 := UInt32.le_iff_toNat_le.mp h
    delta Char.isAlpha Char.isUpper Char.isLower
    simp [UInt32.le_iff_toNat_le]
    omega
  case inl.inr | inr => rfl

structure Figures (cs : List Char) : Prop where
  isFigure : ∀ c ∈ cs, isFigure c
  digit : ∃ c ∈ cs, isDigit c

namespace Figures

theorem of_isDigit (hn : cs ≠ []) (hd : ∀ c ∈ cs, isDigit c) : Figures cs where
  isFigure c hc := by simp [Numeral.isFigure, hd c hc]
  digit := (List.exists_mem_of_ne_nil cs hn).imp fun c hc => ⟨hc, hd c hc⟩

theorem append (h : Figures cs) (h' : ∀ c ∈ cs', Numeral.isFigure c) : Figures (cs ++ cs') where
  isFigure := List.forall_mem_append.mpr ⟨h.isFigure, h'⟩
  digit := h.digit.imp fun _ ⟨hc, hd⟩ => ⟨List.mem_append_left _ hc, hd⟩

theorem cons (hc : Numeral.isFigure c) (h : Figures cs) : Figures (c :: cs) where
  isFigure := List.forall_mem_cons.mpr ⟨hc, h.isFigure⟩
  digit := h.digit.imp fun _ ⟨hc, hd⟩ => ⟨List.mem_cons_of_mem _ hc, hd⟩

theorem ne_nil (h : Figures cs) : cs ≠ [] :=
  have ⟨_, hc, _⟩ := h.digit
  List.ne_nil_of_mem hc

theorem ne_dot (h : Figures cs) : cs ≠ ['.'] := by
  rintro rfl
  have ⟨c, hc, hd⟩ := h.digit
  obtain rfl := List.mem_singleton.mp hc
  cases hd

theorem ne_truth (h : Figures cs) : cs ≠ ['#', 't'] := by
  rintro rfl
  exact nomatch h.isFigure '#' (by simp)

theorem isNumberLike (h : Figures cs) : Reader.isNumberLike cs := by
  have ⟨c, hc, hd⟩ := h.digit
  simp only [Reader.isNumberLike, Bool.and_eq_true, List.any_eq_true, List.all_eq_true]
  exact ⟨⟨c, hc, hd⟩, fun c hc => by simp [isAlpha_of_isFigure (h.isFigure c hc)]⟩

theorem toDigits : Figures (Nat.toDigits 10 n) :=
  .of_isDigit Nat.toDigits_ne_nil fun _ => isDigit_of_mem_toDigits

theorem repr (n : Int) : Figures n.repr.toList := by
  cases n
  case ofNat n => simpa [Int.repr] using toDigits
  case negSucc n => simpa [Int.repr] using toDigits.cons (c := '-') rfl

end Figures

-- Integers

theorem valueOf_toDigits : valueOf (Nat.toDigits 10 n) = n :=
  Nat.ofDigitChars_ten_toDigits

theorem digits?_toDigits : digits? (Nat.toDigits 10 n) = some n := by
  have hd : (Nat.toDigits 10 n).all isDigit := by
    simpa using fun c hc => isDigit_of_mem_toDigits hc
  simp [digits?, hd, valueOf_toDigits, Nat.toDigits_ne_nil]

theorem splitSign_of_isDigit (h : isDigit c) : splitSign (c :: cs) = (false, c :: cs) := by
  unfold splitSign
  split
  case h_1 hc | h_2 hc =>
    cases hc
    cases h
  case h_3 => rfl

theorem splitSign_toDigits : splitSign (Nat.toDigits 10 n) = (false, Nat.toDigits 10 n) := by
  have ⟨c, cs, hc⟩ := List.exists_cons_of_ne_nil (Nat.toDigits_ne_nil (n := n) (b := 10))
  rw [hc]
  exact splitSign_of_isDigit <| isDigit_of_mem_toDigits <| hc ▸ List.mem_cons_self

theorem integer?_repr (n : Int) : integer? n.repr.toList = some n := by
  cases n
  case ofNat n => simp [Int.repr, integer?, splitSign_toDigits, digits?_toDigits]
  case negSucc n => simp [Int.repr, integer?, splitSign, digits?_toDigits, Int.negSucc_eq]

theorem int64?_repr (n : Int64) : int64? n.toInt.repr.toList = some n := by
  have := n.le_toInt
  have := n.toInt_lt
  simp [int64?, integer?_repr, Word.int64?]
  omega

theorem int64?_of_point (h : '.' ∈ cs) : int64? cs = none := by
  have hs : '.' ∈ (splitSign cs).2 := by
    unfold splitSign
    split
    case h_1 | h_2 => simpa using h
    case h_3 => exact h
  have ha : (splitSign cs).2.all isDigit = false := List.all_eq_false.mpr ⟨'.', hs, by decide⟩
  simp [int64?, integer?, digits?, ha]

-- Decimals

theorem valueOf_zeros_append : valueOf (List.replicate n '0' ++ cs) = valueOf cs := by
  rw [valueOf, List.foldl_append]
  congr 1
  exact (Nat.ofDigitChars_replicate_zero (b := 10)).trans (Nat.mul_zero _)

theorem valueOf_append_zeros : valueOf (cs ++ List.replicate n '0') = valueOf cs * 10 ^ n := by
  rw [valueOf, List.foldl_append]
  exact Nat.ofDigitChars_replicate_zero.trans (Nat.mul_comm _ _)

-- Digits that together stand for a number, with so many of them behind a point.
inductive Positional : List Char → Nat → Nat → Prop
  | whole {cs : List Char} : cs ≠ [] → (∀ c ∈ cs, isDigit c) → Positional cs (valueOf cs) 0
  | point {cs cs' : List Char} : cs ≠ [] → cs' ≠ [] → (∀ c ∈ cs, isDigit c) →
      (∀ c ∈ cs', isDigit c) → Positional (cs ++ '.' :: cs') (valueOf (cs ++ cs')) cs'.length

theorem Positional.figures (h : Positional cs m n) : Figures cs := by
  cases h
  case whole hn hd => exact .of_isDigit hn hd
  case point hn _ hd hd' =>
    refine (Figures.of_isDigit hn hd).append <| List.forall_mem_cons.mpr ⟨rfl, fun c hc => ?_⟩
    simp [isFigure, hd' c hc]

end Numeral

open Numeral (Figures Positional isDigit valueOf)

-- A decimal is written with all its digits, some of them behind the point.
theorem Decimal.positional_toText (d : Decimal) : ∃ n : Nat, 0 ≤ d.exponent + n ∧
    Positional d.toText.toList (d.digits * 10 ^ (d.exponent + n).toNat) n := by
  have hn : Nat.toDigits 10 d.digits ≠ [] := Nat.toDigits_ne_nil
  have hd : ∀ c ∈ Nat.toDigits 10 d.digits, isDigit c := fun _ => Numeral.isDigit_of_mem_toDigits
  have hv : valueOf (Nat.toDigits 10 d.digits) = d.digits := Numeral.valueOf_toDigits
  have hz (n : Nat) : ∀ c ∈ List.replicate n '0', isDigit c :=
    fun c hc => List.eq_of_mem_replicate hc ▸ rfl
  have point {cs cs' : List Char}
    (h : Positional (cs ++ '.' :: cs') (valueOf (cs ++ cs')) cs'.length)
      (hv : valueOf (cs ++ cs') = d.digits) (he : d.exponent + cs'.length = 0) :
      ∃ n : Nat, 0 ≤ d.exponent + n ∧
        Positional (cs ++ '.' :: cs') (d.digits * 10 ^ (d.exponent + n).toNat) n :=
    ⟨cs'.length, Int.le_of_eq he.symm, by simpa [he, hv] using h⟩
  simp only [toText, String.toList_ofList]
  generalize Nat.toDigits 10 d.digits = ds at *
  generalize hp : ds.length + d.exponent = p
  split
  case isTrue h =>
    have hds := List.forall_mem_append.mpr ⟨hz (-p).toNat, hd⟩
    have hn := List.append_ne_nil_of_right_ne_nil (List.replicate (-p).toNat '0') hn
    refine point (.point (List.cons_ne_nil '0' []) hn (List.forall_mem_singleton.mpr rfl) hds) ?_ ?_
    · rw [← List.append_assoc, List.singleton_append, ← List.replicate_succ,
        Numeral.valueOf_zeros_append, hv]
    · rw [List.length_append, List.length_replicate]
      omega
  case isFalse h =>
    split
    case isTrue hl =>
      refine ⟨0, by omega, ?_⟩
      have he : (d.exponent + (0 : Nat)).toNat = p.toNat - ds.length := by omega
      rw [he, ← hv, ← Numeral.valueOf_append_zeros]
      exact .whole (List.append_ne_nil_of_left_ne_nil hn _) (List.forall_mem_append.mpr ⟨hd, hz _⟩)
    case isFalse hl =>
      have hs := ds.take_append_drop p.toNat
      refine point (.point ?_ ?_ (fun c hc => hd c (List.mem_of_mem_take hc))
        fun c hc => hd c (List.mem_of_mem_drop hc)) ?_ ?_
      · simp only [ne_eq, List.take_eq_nil_iff, hn, or_false]
        omega
      · rw [ne_eq, List.drop_eq_nil_iff]
        omega
      · rw [hs, hv]
      · rw [List.length_drop]
        omega

namespace Binary64

variable {negative : Bool} {m : Nat} {e : Int}

def isFinite : Binary64 → Bool
  | finite .. => true
  | nan | infinite _ => false

theorem figures_toText : Figures (finite negative m e).toText.toList := by
  have hm : Figures (if m = 0 then "0" else (Decimal.shortest m e).toText).toList := by
    split
    case isTrue => exact .toDigits (n := 0)
    case isFalse =>
      have ⟨_, _, h⟩ := Decimal.positional_toText (.shortest m e)
      exact h.figures
  cases negative
  case true => simpa [toText] using hm.cons (c := '-') rfl
  case false => exact hm

end Binary64

theorem Style.figures_floatText {x : Float} (h : (Binary64.ofFloat x).isFinite) :
    Figures (floatText x).toList ∧ '.' ∈ (floatText x).toList := by
  unfold floatText
  generalize Binary64.ofFloat x = d at h
  cases d
  case nan | infinite => cases h
  case finite =>
    dsimp only
    split
    case isTrue hc => exact ⟨Binary64.figures_toText, by simpa using hc⟩
    case isFalse hc =>
      rw [String.toList_append]
      have h0 : ∀ c ∈ ".0".toList, Numeral.isFigure c :=
        List.forall_mem_cons.mpr ⟨rfl, List.forall_mem_singleton.mpr rfl⟩
      exact ⟨Binary64.figures_toText.append h0, by simp⟩

end StepLisp
