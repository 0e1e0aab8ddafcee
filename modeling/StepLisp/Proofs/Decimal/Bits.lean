import StepLisp.Proofs.Decimal.Rounding

namespace StepLisp

open Float.Model Float.Model.UnpackedFloat Rounding

namespace Binary64

variable {negative : Bool} {m : Nat} {e : Int}

-- Zero counts as a multiple of the least power of two.
def ofUnpacked : UnpackedFloat → Binary64
  | .notANumber => nan
  | .infinity s => infinite (s == .negative)
  | .zero s => finite (s == .negative) 0 (-1074)
  | .finite s m e _ => finite (s == .negative) m e

def sign (negative : Bool) : Sign :=
  if negative then .negative else .positive

theorem eq_finite_of_ofUnpacked {u : UnpackedFloat} (h : ofUnpacked u = finite negative m e)
    (hm : 0 < m) : u = .finite (sign negative) m e hm := by
  cases u <;> cases h
  case zero => exact absurd hm (Nat.lt_irrefl _)
  case finite s _ =>
    cases s <;> rfl

-- What the parts of a double stand for.
def ofParts (negative : Bool) (x f : Nat) : Binary64 :=
  if x = 2047 then if f = 0 then infinite negative else nan
  else if x = 0 then finite negative f (-1074)
  else finite negative (0x10000000000000 + f) (x - 1075)

theorem toNat_one_append (f : BitVec 52) : (1#1 ++ f).toNat = 0x10000000000000 + f.toNat := by
  rw [BitVec.toNat_append, BitVec.toNat_ofNat, Nat.shiftLeft_eq, Nat.mul_comm,
    ← Nat.two_pow_add_eq_or_of_lt f.isLt]

theorem ofUnpacked_unpack (b : BitVec Format.binary64.numBits) :
    ofUnpacked (UnpackedFloat.unpack .binary64 b) =
      ofParts (Sign.ofBitVec (unpackSign b) == .negative) (unpackExponent b).toNat
        (unpackMantissa b).toNat := by
  have hx : unpackExponent b = -1#11 ↔ (unpackExponent b).toNat = 2047 :=
    BitVec.toNat_inj.symm
  have h0 : unpackExponent b = 0#11 ↔ (unpackExponent b).toNat = 0 := BitVec.toNat_inj.symm
  have hf : unpackMantissa b = 0#52 ↔ (unpackMantissa b).toNat = 0 := BitVec.toNat_inj.symm
  unfold ofParts
  by_cases h : unpackExponent b = -1#11
  case pos =>
    rw [if_pos (hx.mp h)]
    by_cases hm : unpackMantissa b = 0#52
    case pos =>
      rw [if_pos (hf.mp hm)]
      exact congrArg ofUnpacked <| (if_pos h).trans (if_pos hm)
    case neg =>
      rw [if_neg (mt hf.mpr hm)]
      exact congrArg ofUnpacked <| (if_pos h).trans (if_neg hm)
  case neg =>
    rw [if_neg (mt hx.mpr h)]
    by_cases h' : unpackExponent b = 0#11
    case pos =>
      rw [if_pos (h0.mp h')]
      by_cases hm : unpackMantissa b = 0#52
      case pos =>
        rw [hf.mp hm]
        exact congrArg ofUnpacked <| (if_neg h).trans <| (if_pos h').trans (dif_pos hm)
      case neg =>
        have hu : ofUnpacked (UnpackedFloat.unpack .binary64 b) =
            finite (Sign.ofBitVec (unpackSign b) == .negative) (unpackMantissa b).toNat
              ((unpackExponent b).toNat - 1075 + 1) :=
          congrArg ofUnpacked <| (if_neg h).trans <| (if_pos h').trans (dif_neg hm)
        rw [hu, h0.mp h']
        rfl
    case neg =>
      rw [if_neg (mt h0.mpr h'), ← toNat_one_append]
      exact congrArg ofUnpacked <| (if_neg h).trans (if_neg h')

theorem ofBits_toNat (b : BitVec Format.binary64.numBits) : ofBits b.toNat =
    ofParts (Sign.ofBitVec (unpackSign b) == .negative) (unpackExponent b).toNat
      (unpackMantissa b).toNat := by
  have hx : (unpackExponent b).toNat = b.toNat >>> 52 % 2048 := rfl
  have hf : (unpackMantissa b).toNat = b.toNat % 0x10000000000000 := rfl
  have hs : (Sign.ofBitVec (unpackSign b) == .negative) = (b.toNat >>> 63 % 2 == 1) := by
    have hb : (unpackSign b).toNat = b.toNat >>> 63 % 2 := rfl
    rw [← hb]
    generalize unpackSign b = c
    revert c
    decide
  rw [hx, hf, hs]
  rfl

-- What a double stands for is what is unpacked from its bits.
theorem ofUnpacked_toModel (x : Float) : ofUnpacked x.toModel.unpack = ofFloat x :=
  (ofUnpacked_unpack x.toBits.toBitVec).trans (ofBits_toNat x.toBits.toBitVec).symm

theorem parts_of_finite {n : Bool} {x f : Nat} (h : ofParts n x f = finite negative m e) :
    n = negative ∧
      (x = 0 ∧ m = f ∧ e = -1074 ∨ 0 < x ∧ m = 0x10000000000000 + f ∧ e = x - 1075) := by
  unfold ofParts at h
  split at h
  case isTrue => split at h <;> cases h
  case isFalse =>
    split at h <;> cases h
    case isTrue hx => exact ⟨rfl, .inl ⟨hx, rfl, rfl⟩⟩
    case isFalse hx => exact ⟨rfl, .inr ⟨Nat.pos_of_ne_zero hx, rfl, rfl⟩⟩

-- A double is told by the number that it stands for.
theorem eq_of_ofFloat {x y : Float} (hx : ofFloat x = finite negative m e)
    (hy : ofFloat y = finite negative m e) : x = y := by
  have hbits : x.toBits.toNat = y.toBits.toNat := by
    have := x.toBits.toNat_lt
    have := y.toBits.toNat_lt
    obtain ⟨hn, hx⟩ := parts_of_finite hx
    obtain ⟨hn', hy⟩ := parts_of_finite hy
    have hs : x.toBits.toNat >>> 63 % 2 = y.toBits.toNat >>> 63 % 2 := by
      have hn := Bool.eq_iff_iff.mp (hn.trans hn'.symm)
      simp only [beq_iff_eq] at hn
      omega
    simp only [Nat.shiftRight_eq_div_pow] at hs hx hy
    omega
  obtain ⟨⟨_, _⟩⟩ := x
  obtain ⟨⟨_, _⟩⟩ := y
  cases UInt64.toNat_inj.mp hbits
  rfl

-- The fraction has 52 bits, and the exponent 11.
theorem canonical {x : Float} (h : ofFloat x = finite negative m e) (hm : 0 < m) :
    Canonical m e := by
  unfold ofFloat ofBits at h
  generalize x.toBits.toNat = bits at h
  have hf : bits % 0x10000000000000 < 2 ^ 52 := Nat.mod_lt _ (by norm_num)
  have hx : bits >>> 52 % 2048 < 2048 := Nat.mod_lt _ (by norm_num)
  dsimp only at h
  split at h
  case isTrue => split at h <;> cases h
  case isFalse =>
    split at h <;> cases h
    case isTrue => exact ⟨hm, by omega, by omega, by omega, .inr rfl⟩
    case isFalse => exact ⟨hm, by omega, by omega, by omega, .inl (by omega)⟩

end Binary64

namespace Rounding

variable {m : Nat} {e : Int} {s : Sign}

theorem Canonical.log2_eq_iff (hc : Canonical m e) : m.log2 + 1 = 53 ↔ 2 ^ 52 ≤ m := by
  have h1 : m.log2 < 53 := (Nat.log2_lt hc.pos.ne').mpr hc.lt
  have h2 := Nat.le_log2 hc.pos.ne' (k := 52)
  omega

-- The sign, the exponent and the fraction of a double stand side by side.
theorem pack_of_normal (hc : Canonical m e) (hm : 2 ^ 52 ≤ m) :
    UnpackedFloat.pack .binary64 (.finite s m e hc.pos) =
      packComponents .binary64 s (BitVec.ofNat 11 (e + 1075).toNat) (BitVec.ofNat 52 m) := by
  have hb : ¬2 ^ 11 ≤ (e + 1023 + 52).toNat + 1 := by
    have := hc.exponent_le
    omega
  have he : (e + 1023 + 52).toNat = (e + 1075).toNat := by congr 1; omega
  exact (if_neg hb).trans <| (if_pos (hc.log2_eq_iff.mpr hm)).trans (he ▸ rfl)

theorem pack_of_subnormal (hc : Canonical m e) (hm : m < 2 ^ 52) :
    UnpackedFloat.pack .binary64 (.finite s m e hc.pos) =
      packComponents .binary64 s 0#11 (BitVec.ofNat 52 m) := by
  have hb : ¬2 ^ 11 ≤ (e + 1023 + 52).toNat + 1 := by
    have := hc.exponent_le
    omega
  exact (if_neg hb).trans (if_neg (mt hc.log2_eq_iff.mp hm.not_ge))

theorem ofBitVec_unpackSign_packComponents {format : Format}
    {x : BitVec format.exponentBits} {f : BitVec format.mantissaBitsWithoutImplicit} :
    Sign.ofBitVec (unpackSign (packComponents format s x f)) = s := by
  have hs : unpackSign (packComponents format s x f) = s.toBitVec := by
    show ((s.toBitVec ++ x ++ f).extractLsb _ _).cast _ = _
    ext i (_ | ⟨⟨⟩⟩)
    simp +arith [BitVec.extractLsb, BitVec.getElem_append]
  rw [hs]
  cases s <;> rfl

theorem unpack_pack (hc : Canonical m e) :
    (Float.Model.pack (.finite s m e hc.pos)).unpack = .finite s m e hc.pos := by
  have := hc.lt
  have := hc.le_exponent
  have := hc.exponent_le
  have h (x : BitVec 11) (f : BitVec 52) :=
    Binary64.ofUnpacked_unpack (packComponents .binary64 s x f)
  simp only [unpackExponent_packComponents, unpackMantissa_packComponents,
    ofBitVec_unpackSign_packComponents] at h
  have hs : Binary64.sign (s == .negative) = s := by cases s <;> rfl
  suffices hu : Binary64.ofUnpacked (Float.Model.pack (.finite s m e hc.pos)).unpack =
      .finite (s == .negative) m e by
    rw [Binary64.eq_finite_of_ofUnpacked hu hc.pos, hs]
  show Binary64.ofUnpacked (UnpackedFloat.unpack .binary64 (UnpackedFloat.pack .binary64 _)) = _
  by_cases hm : 2 ^ 52 ≤ m
  · have hx : (e + 1075).toNat % 2 ^ 11 = (e + 1075).toNat := Nat.mod_eq_of_lt (by omega)
    rw [pack_of_normal hc hm, h, BitVec.toNat_ofNat, BitVec.toNat_ofNat, hx, Binary64.ofParts,
      if_neg (by omega), if_neg (by omega)]
    congr 1 <;> omega
  · have he : e = -1074 := hc.normal.resolve_left hm
    have hf : m % 2 ^ 52 = m := Nat.mod_eq_of_lt (by omega)
    rw [pack_of_subnormal hc (by omega), h, BitVec.toNat_ofNat, BitVec.toNat_ofNat, hf, he]
    rfl

end Rounding
end StepLisp
