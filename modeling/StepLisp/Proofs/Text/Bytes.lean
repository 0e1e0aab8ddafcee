import StepLisp.Proofs.Text.Acceptance

namespace StepLisp.Reader

variable {c : Char} {cs cs' : List Char} {b : UInt8} {bs rest seen : List UInt8}

def bytes (cs : List Char) : List UInt8 :=
  cs.flatMap String.utf8EncodeChar

def isBlankByte (b : UInt8) : Bool :=
  b = 32 || b = 9 || b = 10 || b = 12 || b = 13

def isDelimiterByte (b : UInt8) : Bool :=
  isBlankByte b || b = 40 || b = 41 || b = 39 || b = 96 || b = 44 || b = 34 || b = 59

def escapedByte (b : UInt8) : UInt8 :=
  if b = 110 then 10 else if b = 116 then 9 else if b = 114 then 13 else b

-- The bytes of a string literal after its opening quote, and the bytes behind it.
def literalBytes (seen : List UInt8) : List UInt8 → Except Unreadable (List UInt8 × List UInt8)
  | [] => .error .unterminatedString
  | b :: bs =>
    if b = 34 then .ok (seen.reverse, bs)
    else if b = 92 then
      match bs with
      | [] => .error .unterminatedEscape
      | e :: bs => literalBytes (escapedByte e :: seen) bs
    else literalBytes (b :: seen) bs

@[simp]
theorem bytes_nil : bytes [] = [] :=
  rfl

@[simp]
theorem bytes_cons : bytes (c :: cs) = String.utf8EncodeChar c ++ bytes cs :=
  rfl

@[simp]
theorem bytes_append : bytes (cs ++ cs') = bytes cs ++ bytes cs' :=
  List.flatMap_append

theorem length_bytes : (bytes cs).length = byteLength cs := by
  induction cs
  case nil => rfl
  case cons c cs hi =>
    rw [bytes_cons, List.length_append, String.length_utf8EncodeChar, hi, byteLength_cons]

-- A character is one byte below 128, or several from there on.
inductive Encoded (c : Char) : List UInt8 → Prop
  | single {n : Nat} : n < 128 → c = Char.ofNat n → Encoded c [UInt8.ofNat n]
  | multiple {b : UInt8} {bs : List UInt8} :
      128 ≤ c.toNat → (∀ b' ∈ b :: bs, 128 ≤ b') → Encoded c (b :: bs)

theorem encoded (c : Char) : Encoded c (String.utf8EncodeChar c) := by
  have high {n : Nat} (h : 128 ≤ n) (hn : n < 256) : 128 ≤ UInt8.ofNat n := by
    rw [UInt8.le_iff_toNat_le, UInt8.toNat_ofNat', Nat.mod_eq_of_lt hn]
    exact h
  unfold String.utf8EncodeChar
  simp only
  split
  case isTrue h => exact .single (Nat.lt_succ_of_le h) (Char.ofNat_toNat c).symm
  case isFalse h =>
    have hc : 128 ≤ c.toNat := Nat.lt_of_not_le h
    split
    case isTrue =>
      refine .multiple hc ?_
      simp only [List.forall_mem_cons]
      exact ⟨high (by omega) (by omega), high (by omega) (by omega), by simp⟩
    case isFalse =>
      split <;> refine .multiple hc ?_ <;> simp only [List.forall_mem_cons]
      case isTrue =>
        exact ⟨high (by omega) (by omega), high (by omega) (by omega), high (by omega) (by omega),
          by simp⟩
      case isFalse =>
        exact ⟨high (by omega) (by omega), high (by omega) (by omega), high (by omega) (by omega),
          high (by omega) (by omega), by simp⟩

theorem ne_of_high {k : Char} (h : 128 ≤ c.toNat) (hk : k.toNat < 128) : c ≠ k := by
  rintro rfl
  omega

theorem byte_ne_of_high {k : UInt8} (h : 128 ≤ b) (hk : k < 128) : b ≠ k := by
  rintro rfl
  exact UInt8.lt_irrefl _ (UInt8.lt_of_lt_of_le hk h)

-- Words

theorem isDelimiter_of_high (h : 128 ≤ c.toNat) : isDelimiter c = false := by
  simp [isDelimiter, isBlank, ne_of_high h]

theorem isDelimiterByte_of_high (h : 128 ≤ b) : isDelimiterByte b = false := by
  simp [isDelimiterByte, isBlankByte, byte_ne_of_high h]

theorem isDelimiterByte_ofNat : ∀ n < 128,
    isDelimiterByte (UInt8.ofNat n) = isDelimiter (Char.ofNat n) := by
  decide

-- All bytes of a character are delimiters, or none is.
theorem Encoded.isDelimiterByte_eq (h : Encoded c bs) :
    ∀ b ∈ bs, isDelimiterByte b = isDelimiter c := by
  cases h
  case single n hn hc =>
    subst hc
    exact List.forall_mem_singleton.mpr (isDelimiterByte_ofNat n hn)
  case multiple b bs hc hb =>
    intro b' hb'
    rw [isDelimiter_of_high hc, isDelimiterByte_of_high (hb b' hb')]

theorem Encoded.ne_nil (h : Encoded c bs) : bs ≠ [] := by
  cases h <;> exact List.cons_ne_nil _ _

-- A run of bytes that are no delimiters is a run of characters that are none.
theorem span_bytes : (bytes cs).span (!isDelimiterByte ·) =
    (bytes (cs.span (!isDelimiter ·)).1, bytes (cs.span (!isDelimiter ·)).2) := by
  simp only [List.span_eq_takeWhile_dropWhile]
  induction cs
  case nil => rfl
  case cons c cs hi =>
    have hb := (encoded c).isDelimiterByte_eq
    rw [Prod.mk.injEq] at hi
    cases hc : isDelimiter c
    case false =>
      have hp : ∀ b ∈ String.utf8EncodeChar c, (!isDelimiterByte b) = true := by
        intro b hm
        rw [hb b hm, hc]
        rfl
      rw [bytes_cons, List.takeWhile_append_of_pos hp, List.dropWhile_append_of_pos hp, hi.left,
        hi.right]
      simp [hc]
    case true =>
      obtain ⟨b, bs, he⟩ := List.exists_cons_of_ne_nil (encoded c).ne_nil
      have hd : isDelimiterByte b = true := by rw [hb b (by simp [he]), hc]
      simp [he, hd, hc]

-- Literals

theorem literalBytes_cons (hq : b ≠ 34) (he : b ≠ 92) :
    literalBytes seen (b :: bs) = literalBytes (b :: seen) bs := by
  rw [literalBytes.eq_def]
  simp [hq, he]

theorem literalBytes_of_high (h : ∀ b ∈ bs, 128 ≤ b) :
    literalBytes seen (bs ++ rest) = literalBytes (bs.reverse ++ seen) rest := by
  induction bs generalizing seen
  case nil => rfl
  case cons b bs hi =>
    have ⟨hb, hbs⟩ := List.forall_mem_cons.mp h
    have hq : b ≠ 34 := byte_ne_of_high hb (by decide)
    have he : b ≠ 92 := byte_ne_of_high hb (by decide)
    rw [List.cons_append, literalBytes_cons hq he, hi hbs]
    simp

theorem escaped_ofNat : ∀ n < 128,
    String.utf8EncodeChar (escaped (Char.ofNat n)) = [escapedByte (UInt8.ofNat n)] := by
  decide

theorem escaped_of_high (h : 128 ≤ c.toNat) : escaped c = c := by
  unfold escaped
  split
  case h_4 => rfl
  all_goals exact absurd h (by decide)

theorem escapedByte_of_high (h : 128 ≤ b) : escapedByte b = b := by
  simp [escapedByte, byte_ne_of_high h]

theorem special_ofNat : ∀ n < 128, (UInt8.ofNat n = 34 → Char.ofNat n = '"') ∧
    (UInt8.ofNat n = 92 → Char.ofNat n = '\\') := by
  decide

theorem literalBytes_plain (hq : c ≠ '"') (he : c ≠ '\\') :
    literalBytes seen (String.utf8EncodeChar c ++ bs) =
      literalBytes ((String.utf8EncodeChar c).reverse ++ seen) bs := by
  have h := encoded c
  generalize String.utf8EncodeChar c = code at h
  cases h
  case single n hn hc =>
    subst hc
    have ⟨hq', he'⟩ := special_ofNat n hn
    exact literalBytes_cons (hq ∘ hq') (he ∘ he')
  case multiple hb => exact literalBytes_of_high hb

theorem literalBytes_escape : literalBytes seen (92 :: (String.utf8EncodeChar c ++ bs)) =
    literalBytes ((String.utf8EncodeChar (escaped c)).reverse ++ seen) bs := by
  have h := encoded c
  generalize hs : String.utf8EncodeChar c = code at h
  cases h
  case single n hn hc =>
    subst hc
    rw [escaped_ofNat n hn]
    rfl
  case multiple b bs' hc hb =>
    -- The first byte is taken as it is, and the others are not special.
    have ⟨hb, hbs⟩ := List.forall_mem_cons.mp hb
    have hl : literalBytes seen (92 :: b :: (bs' ++ bs)) =
        literalBytes (escapedByte b :: seen) (bs' ++ bs) := rfl
    rw [escaped_of_high hc, hs, List.cons_append, hl, escapedByte_of_high hb,
      literalBytes_of_high hbs]
    simp

-- A string literal can be read byte by byte.
theorem literalBytes_bytes (seen : List Char) :
    literalBytes (bytes seen.reverse).reverse (bytes cs) =
      (literal seen cs).map fun (text, rest) => (bytes text.toList, bytes rest) := by
  have hseen {c : Char} {seen : List Char} : (bytes (c :: seen).reverse).reverse =
      (String.utf8EncodeChar c).reverse ++ (bytes seen.reverse).reverse := by
    simp
  fun_induction literal seen cs
  case case1 => rfl
  case case2 seen cs =>
    have hq : bytes ('"' :: cs) = 34 :: bytes cs := rfl
    rw [hq, literalBytes.eq_def]
    simp [Except.map]
  case case3 => rfl
  case case4 c cs hi =>
    have he : bytes ('\\' :: c :: cs) = 92 :: (String.utf8EncodeChar c ++ bytes cs) := rfl
    rw [he, literalBytes_escape, ← hi, hseen]
  case case5 hq hn hc hi =>
    rw [bytes_cons, literalBytes_plain hq (ne_backslash hn hc), ← hi, hseen]

end StepLisp.Reader
