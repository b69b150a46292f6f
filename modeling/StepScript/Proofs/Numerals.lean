import Mathlib
import StepScript.Value.Operations

/-!
# StepScript.Proofs.Numerals

Natural numbers as script numbers: below `2 ^ 53` nothing is lost.

* `Binary.Normal` — `m · 2 ^ e` is a double whose leading bit is set.
* `Normal.roundWithAccuracy_eq` — rounding leaves such a number alone, wherever the bits stand.
* `Normal.unpack_pack`, `Normal.ofBits_pack` — its encoding reads back, in the number model and
  as a `Binary`.
* `Binary.toInt?_ofNat` — a natural number below `2 ^ 53` is the integer that its number is.
* `Value.place_nat` — so it addresses the place that it counts, if there is one.
-/

namespace StepScript
namespace Binary

open Float.Model Float.Model.UnpackedFloat

/-- `m · 2 ^ e` is a double with the leading bit of its mantissa set. -/
structure Normal (m : Nat) (e : Int) : Prop where
  low : 2 ^ 52 ≤ m
  high : m < 2 ^ 53
  least : -1074 ≤ e
  most : e ≤ 971

/-- Bits that are all zero are shifted out without a trace. -/
theorem shiftRight_exact (m j k : Nat) :
    (⟨m * 2 ^ (j + k), false, false⟩ : ExtendedMantissa) >>> k = ⟨m * 2 ^ j, false, false⟩ := by
  induction k generalizing j with
  | zero => rfl
  | succ k ih =>
    have last : (⟨m * 2 ^ (j + (k + 1)), false, false⟩ : ExtendedMantissa) >>> (k + 1) =
        ((⟨m * 2 ^ (j + 1 + k), false, false⟩ : ExtendedMantissa) >>> k).shiftRightOne := by
      rw [show j + (k + 1) = j + 1 + k by omega]
      rfl
    have double : m * 2 ^ (j + 1) = 2 * (m * 2 ^ j) := by ring
    rw [last, ih (j + 1), double]
    simp [ExtendedMantissa.shiftRightOne]

namespace Normal

variable {m : Nat} {e : Int}

theorem pos (h : Normal m e) : 0 < m := Nat.lt_of_lt_of_le (by decide) h.low

/-- The number `m · 2 ^ e`, taken apart. -/
def unpacked (h : Normal m e) : UnpackedFloat := .finite .positive m e h.pos

theorem log2_mul_two_pow (h : Normal m e) (k : Nat) : (m * 2 ^ k).log2 = 52 + k := by
  have positive : 0 < 2 ^ k := Nat.two_pow_pos k
  refine (Nat.log2_eq_iff (Nat.ne_of_gt (Nat.mul_pos h.pos positive))).mpr ⟨?_, ?_⟩
  · rw [Nat.pow_add]
    exact Nat.mul_le_mul_right _ h.low
  · rw [Nat.add_right_comm, Nat.pow_add]
    exact Nat.mul_lt_mul_of_pos_right h.high positive

theorem log2_eq (h : Normal m e) : m.log2 = 52 := by
  simpa using h.log2_mul_two_pow 0

theorem targetExponent_eq (h : Normal m e) (k : Nat) :
    Format.binary64.targetExponent (totalExponent (m * 2 ^ k) (e - k)) = e := by
  have least := h.least
  simp only [Format.targetExponent, totalExponent, h.log2_mul_two_pow, Format.mantissaBits,
    Format.minExponent]
  norm_num
  omega

theorem shiftToTargetExponent_eq (h : Normal m e) (k : Nat) :
    shiftToTargetExponent .binary64 (m * 2 ^ k) (e - k) .exact = (⟨m, false, false⟩, e) := by
  have amount : (e - (e - (k : Int))).toNat = k := by omega
  have shifted := shiftRight_exact m 0 k
  rw [Nat.zero_add, Nat.pow_zero, Nat.mul_one] at shifted
  unfold shiftToTargetExponent
  rw [h.targetExponent_eq k]
  simp only [shiftToExponent, amount, ExtendedMantissa.ofMantissaAndAccuracy]
  rw [shifted, Int.sub_add_cancel]

theorem roundWithAccuracy_eq (h : Normal m e) (k : Nat) :
    roundWithAccuracy .binary64 .positive (m * 2 ^ k) (e - k) .exact = h.unpacked := by
  have still := h.shiftToTargetExponent_eq 0
  rw [Nat.pow_zero, Nat.mul_one, Int.natCast_zero, Int.sub_zero] at still
  unfold roundWithAccuracy
  rw [h.shiftToTargetExponent_eq k]
  dsimp only [ExtendedMantissa.roundedMantissa, ExtendedMantissa.accuracy,
    Accuracy.roundToNearestEven]
  rw [still]
  exact dif_neg (Nat.ne_of_gt h.pos)

/-- The exponent field, with its bias. -/
theorem toNat_exponent (h : Normal m e) :
    (BitVec.ofNat 11 (e + 1075).toNat).toNat = (e + 1075).toNat := by
  have most := h.most
  rw [BitVec.toNat_ofNat]
  omega

/-- The fraction field, which leaves the leading bit out. -/
theorem toNat_fraction (h : Normal m e) : (BitVec.ofNat 52 m).toNat = m - 2 ^ 52 := by
  have low := h.low
  have high := h.high
  rw [BitVec.toNat_ofNat]
  omega

theorem pack_eq (h : Normal m e) :
    UnpackedFloat.pack .binary64 h.unpacked =
      packComponents .binary64 .positive (BitVec.ofNat 11 (e + 1075).toNat)
        (BitVec.ofNat 52 m) := by
  have most := h.most
  have biased : (e + Format.binary64.exponentBias +
      Format.binary64.mantissaBitsWithoutImplicit).toNat = (e + 1075).toNat := by
    change (e + 1023 + 52).toNat = (e + 1075).toNat
    omega
  unfold unpacked UnpackedFloat.pack
  simp only [h.log2_eq, biased]
  exact (if_neg (by omega)).trans (if_pos rfl)

theorem unpack_pack (h : Normal m e) :
    UnpackedFloat.unpack .binary64 (UnpackedFloat.pack .binary64 h.unpacked) = h.unpacked := by
  have low := h.low
  have least := h.least
  have most := h.most
  have not_ones : BitVec.ofNat 11 (e + 1075).toNat ≠ -1#11 := by
    intro eq
    have value : (e + 1075).toNat = 2047 := h.toNat_exponent.symm.trans (congrArg BitVec.toNat eq)
    omega
  have not_zero : BitVec.ofNat 11 (e + 1075).toNat ≠ 0#11 := by
    intro eq
    have value : (e + 1075).toNat = 0 := h.toNat_exponent.symm.trans (congrArg BitVec.toNat eq)
    omega
  have mantissa : (1#1 ++ BitVec.ofNat 52 m).toNat = m := by
    rw [BitVec.toNat_append, ← Nat.shiftLeft_add_eq_or_of_lt (BitVec.isLt _), h.toNat_fraction]
    have leading : (1#1).toNat <<< 52 = 2 ^ 52 := by decide
    rw [leading]
    omega
  have exponent : ((e + 1075).toNat : Int) - (1023 + 52) = e := by omega
  rw [h.pack_eq, UnpackedFloat.unpack]
  simp only [unpackMantissa_packComponents, unpackExponent_packComponents,
    unpackSign_packComponents, Sign.ofBitVec_toBitVec, h.toNat_exponent]
  rw [if_neg not_ones, if_neg not_zero]
  unfold unpacked
  congr 1

theorem toNat_pack (h : Normal m e) :
    (UnpackedFloat.pack .binary64 h.unpacked).toNat =
      (e + 1075).toNat * 2 ^ 52 + (m - 2 ^ 52) := by
  rw [h.pack_eq]
  change ((0#1 ++ BitVec.ofNat 11 (e + 1075).toNat) ++ BitVec.ofNat 52 m).toNat = _
  rw [BitVec.toNat_append, BitVec.toNat_append,
    ← Nat.shiftLeft_add_eq_or_of_lt (BitVec.isLt _),
    ← Nat.shiftLeft_add_eq_or_of_lt (BitVec.isLt _), h.toNat_fraction, h.toNat_exponent,
    Nat.shiftLeft_eq]
  simp

theorem ofBits_pack (h : Normal m e) :
    ofBits 52 11 (UnpackedFloat.pack .binary64 h.unpacked).toNat =
      .finite false m e (m - 2 ^ 52 == 0 && 1 < (e + 1075).toNat) := by
  have low := h.low
  have high := h.high
  have least := h.least
  have most := h.most
  have sign : (UnpackedFloat.pack .binary64 h.unpacked).toNat >>> (52 + 11) % 2 = 0 := by
    rw [h.toNat_pack, Nat.shiftRight_eq_div_pow]
    omega
  have biased : (UnpackedFloat.pack .binary64 h.unpacked).toNat >>> 52 % 2 ^ 11 =
      (e + 1075).toNat := by
    rw [h.toNat_pack, Nat.shiftRight_eq_div_pow]
    omega
  have fraction : (UnpackedFloat.pack .binary64 h.unpacked).toNat % 2 ^ 52 = m - 2 ^ 52 := by
    rw [h.toNat_pack]
    omega
  have mantissa : 2 ^ 52 + (m - 2 ^ 52) = m := by omega
  have exponent : (2 - 1024 - 52 : Int) + (((e + 1075).toNat : Int) - 1) = e := by omega
  simp only [ofBits, powTwo, Nat.pow_eq, sign, biased, fraction, mantissa]
  rw [if_neg (by omega), if_neg (by omega)]
  congr 1

end Normal

theorem normal_of_lt {n : Nat} (pos : 0 < n) (h : n < 2 ^ 53) :
    Normal (n * 2 ^ (52 - n.log2)) (-((52 - n.log2 : Nat) : Int)) := by
  have bits : n.log2 ≤ 52 := Nat.le_of_lt_succ ((Nat.log2_lt (Nat.ne_of_gt pos)).mpr h)
  have scale : 0 < 2 ^ (52 - n.log2) := Nat.two_pow_pos _
  constructor
  · calc 2 ^ 52 = 2 ^ n.log2 * 2 ^ (52 - n.log2) := by rw [← Nat.pow_add]; congr 1; omega
      _ ≤ n * 2 ^ (52 - n.log2) := Nat.mul_le_mul_right _ (Nat.log2_self_le (Nat.ne_of_gt pos))
  · calc n * 2 ^ (52 - n.log2)
        < 2 ^ (n.log2 + 1) * 2 ^ (52 - n.log2) := Nat.mul_lt_mul_of_pos_right Nat.lt_log2_self scale
      _ = 2 ^ 53 := by rw [← Nat.pow_add]; congr 1; omega
  · omega
  · omega

theorem ofNat_unpacked {n : Nat} (pos : 0 < n) (h : n < 2 ^ 53) :
    UnpackedFloat.ofNat .binary64 n = (normal_of_lt pos h).unpacked := by
  have target : Format.binary64.targetExponent (totalExponent n 0) =
      -((52 - n.log2 : Nat) : Int) := by
    have bits : n.log2 ≤ 52 := Nat.le_of_lt_succ ((Nat.log2_lt (Nat.ne_of_gt pos)).mpr h)
    simp only [Format.targetExponent, totalExponent, Format.mantissaBits, Format.minExponent]
    norm_num
    omega
  have amount : (0 - -((52 - n.log2 : Nat) : Int)).toNat = 52 - n.log2 := by omega
  have still := (normal_of_lt pos h).roundWithAccuracy_eq 0
  rw [Nat.pow_zero, Nat.mul_one, Int.natCast_zero, Int.sub_zero] at still
  have positive : compare (n : Int) 0 = .gt := by
    rw [Int.compare_eq_gt]
    omega
  unfold UnpackedFloat.ofNat UnpackedFloat.ofInt UnpackedFloat.normalize
  simp only [positive, Int.toNat_natCast, UnpackedFloat.round, target, decreaseExponent, amount,
    Nat.shiftLeft_eq]
  rw [Int.zero_sub]
  exact still

/-- The number of a count is its exact value: the two roundings on the way change nothing. -/
theorem toModel_ofNat {n : Nat} (pos : 0 < n) (h : n < 2 ^ 53) :
    (Float.ofNat n).toModel = Float.Model.pack (normal_of_lt pos h).unpacked := by
  have word : n.toUInt64.toNat = n := by
    rw [Nat.toUInt64, UInt64.toNat_ofNat']
    omega
  have whole : (Float.Model.ofUInt64 n.toUInt64).unpack = (normal_of_lt pos h).unpacked := by
    unfold Float.Model.ofUInt64 UnpackedFloat.ofUInt64
    rw [word, ofNat_unpacked pos h]
    exact (normal_of_lt pos h).unpack_pack
  have one : (Float.Model.ofBits 4607182418800017408).unpack =
      .finite .positive (2 ^ 52) (-52) (by decide) := rfl
  have split : Float.ofNat n = n.toUInt64.toFloat * Float.ofBits 4607182418800017408 :=
    dif_pos ⟨h, by decide⟩
  rw [split]
  change Float.Model.pack (UnpackedFloat.mul .binary64 (Float.Model.ofUInt64 n.toUInt64).unpack
    (Float.Model.ofBits 4607182418800017408).unpack) = _
  rw [whole, one]
  exact congrArg Float.Model.pack ((normal_of_lt pos h).roundWithAccuracy_eq 52)

/-- Zero bits below the point do not keep a number from being an integer. -/
theorem toInt?_scaled (n k : Nat) (narrow : Bool) :
    (Binary.finite false (n * 2 ^ k) (-(k : Int)) narrow).toInt? = some (n : Int) := by
  cases k with
  | zero => simp [toInt?, powTwo]
  | succ k =>
    have below : ¬ (0 : Int) ≤ -((k + 1 : Nat) : Int) := by omega
    have amount : (- -((k + 1 : Nat) : Int)).toNat = k + 1 := by omega
    have whole : n * 2 ^ (k + 1) % powTwo (k + 1) = 0 := Nat.mul_mod_left _ _
    have quotient : n * 2 ^ (k + 1) / powTwo (k + 1) = n :=
      Nat.mul_div_cancel _ (Nat.two_pow_pos _)
    simp only [toInt?]
    rw [if_neg below, amount, if_pos whole, quotient]
    rfl

theorem toInt?_ofNat {n : Nat} (h : n < 2 ^ 53) : (ofFloat (Float.ofNat n)).toInt? = some n := by
  rcases Nat.eq_zero_or_pos n with zero | pos
  · have bits : ofFloat (Float.ofNat 0) = .finite false 0 (-1074) false := rfl
    subst zero
    rw [bits]
    simp [toInt?]
  · have content : ofFloat (Float.ofNat n) = ofBits 52 11
        (UnpackedFloat.pack .binary64 (normal_of_lt pos h).unpacked).toNat := by
      unfold ofFloat Float.toBits
      rw [toModel_ofNat pos h]
      rfl
    rw [content, Normal.ofBits_pack]
    exact toInt?_scaled n (52 - n.log2) _

end Binary

/-- A count below `2 ^ 53` addresses the place it counts, and none behind the last. -/
theorem Value.place_nat {i : Nat} (h : i < 2 ^ 53) (length : Nat) :
    place length (.nat i) =
      if i < length then .ok i else .error (.indexRange (Value.nat i).display length) := by
  simp only [place, Value.nat, Binary.toInt?_ofNat h]
  rfl

end StepScript
