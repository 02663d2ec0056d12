/-
  Rulebook.Proofs.Json.Number — a number literal never stands for an infinity, or for what is no number.

  A float is taken as it is unpacked: a mantissa of at most 53 bits times a power of two,
  whose exponent is at most 971 if the float is finite. A result that is too long is cut
  off, rounded, and cut off again if rounding makes it too long (`roundWithAccuracy_eq`),
  hence its exponent is at most one above what its size asks for. The integer that is
  gathered from a literal has an exponent of at most 12, and dividing keeps it there, for
  every power of ten that is divided by is 8 or more (`upTo_div`). A product of finite
  floats is finite or an infinity, and where it is an infinity the literal is refused.
  - `upTo_unpack_pack`, `atLeast_unpack_pack`: packing keeps a bound from above, and one
    from below.
  - `upTo_roundWithAccuracy`, `atLeast_roundWithAccuracy`: so does rounding.
  - `isFinite_of_number`: the float that a literal stands for is finite.
-/

import Mathlib
import Rulebook.Json.Number

namespace Rulebook.Binary64

open Float.Model (Format UnpackedFloat totalExponent)
open Float.Model.UnpackedFloat

/-! ## Sizes of integers -/

theorem log2_mono {m n : Nat} (h : m ≤ n) : m.log2 ≤ n.log2 := by
  rw [Nat.log2_eq_log_two, Nat.log2_eq_log_two]
  exact Nat.log_mono_right h

theorem log2_div_two_pow (n k : Nat) : (n / 2 ^ k).log2 = n.log2 - k := by
  rw [Nat.log2_eq_log_two, Nat.log2_eq_log_two, Nat.log_div_base_pow]

theorem log2_shiftLeft_le (n k : Nat) : (n <<< k).log2 ≤ n.log2 + k := by
  have hback := log2_div_two_pow (n <<< k) k
  rw [Nat.shiftLeft_eq, Nat.mul_div_cancel n (Nat.two_pow_pos k)] at hback
  rw [Nat.shiftLeft_eq]
  omega

theorem log2_div_le (m n : Nat) : (m / n).log2 ≤ m.log2 - n.log2 := by
  by_cases hn : n = 0
  · simp [hn]
  · rw [← log2_div_two_pow]
    exact log2_mono (Nat.div_le_div_left (Nat.log2_self_le hn) (Nat.two_pow_pos _))

theorem log2_one_append (mantissa : BitVec 52) : (1#1 ++ mantissa).toNat.log2 = 52 := by
  have hbits : (1#1 ++ mantissa).toNat = 2 ^ 52 + mantissa.toNat := by
    rw [BitVec.toNat_append, ← Nat.shiftLeft_add_eq_or_of_lt mantissa.isLt]
    rfl
  rw [hbits, Nat.log2_eq_iff (by omega)]
  omega

/-! ## Packing -/

/-- Floats that are zero, or a mantissa of at most 53 bits times a power of two with an exponent of at most `bound`. -/
inductive UpTo (bound : Int) : UnpackedFloat → Prop where
  | zero (s : Sign) : UpTo bound (.zero s)
  | finite {s : Sign} {m : Nat} {e : Int} {hm : 0 < m} (short : m.log2 ≤ 52) (low : e ≤ bound) :
    UpTo bound (.finite s m e hm)

/-- Floats that are infinite, or a mantissa of 53 bits times a power of two with an exponent of at least `bound`. -/
inductive AtLeast (bound : Int) : UnpackedFloat → Prop where
  | infinity (s : Sign) : AtLeast bound (.infinity s)
  | finite {s : Sign} {m : Nat} {e : Int} {hm : 0 < m} (long : m.log2 = 52) (high : bound ≤ e) :
    AtLeast bound (.finite s m e hm)

instance (bound : Int) : DecidablePred (AtLeast bound)
  | .infinity s => .isTrue (.infinity s)
  | .finite _ m e _ =>
    if h : m.log2 = 52 ∧ bound ≤ e then .isTrue (.finite h.1 h.2)
    else .isFalse fun hfinite => h (by cases hfinite with | finite long high => exact ⟨long, high⟩)
  | .notANumber => .isFalse nofun
  | .zero _ => .isFalse nofun

theorem UpTo.isFinite {bound : Int} {u : UnpackedFloat} (hu : UpTo bound u) : u.isFinite = true := by
  cases hu with
  | zero s => rfl
  | finite short low => rfl

/-- Bits are unpacked as a finite float if those of the exponent are not all ones. -/
theorem upTo_unpack {bound : Int} (hlow : -1074 ≤ bound) {bits : BitVec Format.binary64.numBits}
    (hones : unpackExponent bits ≠ -1#11) (h : ((unpackExponent bits).toNat : Int) - 1075 ≤ bound) :
    UpTo bound (UnpackedFloat.unpack Format.binary64 bits) := by
  have hmantissa : (unpackMantissa bits).toNat.log2 ≤ 52 := by
    have hlt : (unpackMantissa bits).toNat ≤ 2 ^ 52 := Nat.le_of_lt (BitVec.isLt _)
    exact Nat.le_trans (log2_mono hlt) (Nat.le_of_eq Nat.log2_two_pow)
  unfold UnpackedFloat.unpack
  simp only [if_neg hones]
  split
  · rename_i hzero
    split
    · exact .zero _
    · rw [hzero]
      exact .finite hmantissa hlow
  · exact .finite (Nat.le_of_eq (log2_one_append _)) h

/-- The greatest exponent of a finite float is 971. -/
theorem upTo_of_isFinite {x : Float.Model} (h : x.unpack.isFinite = true) : UpTo 971 x.unpack := by
  have hmax : (@unpackExponent Format.binary64 x.toBits.toBitVec).toNat < 2 ^ 11 := BitVec.isLt _
  by_cases hones : @unpackExponent Format.binary64 x.toBits.toBitVec = -1#11
  · unfold Float.Model.unpack UnpackedFloat.unpack at h
    simp only [if_pos hones] at h
    split at h
    · cases h
    · cases h
  · have hlt : (@unpackExponent Format.binary64 x.toBits.toBitVec).toNat ≠ 2047 :=
      fun hmax => hones (BitVec.eq_of_toNat_eq hmax)
    exact upTo_unpack (by decide) hones (by omega)

/-- A mantissa times a power of two is packed as an infinity if the power is too great, and with its lower 52 bits
    otherwise, for the bit above them goes without saying if it is there. -/
theorem pack_finite (s : Sign) (m : Nat) (e : Int) (hm : 0 < m) :
    UnpackedFloat.pack Format.binary64 (.finite s m e hm) =
      if 971 < e then packedInfinity Format.binary64 s
      else if m.log2 = 52 then
        packComponents Format.binary64 s (BitVec.ofNat 11 (e + 1075).toNat) (BitVec.ofNat 52 m)
      else packComponents Format.binary64 s 0#11 (BitVec.ofNat 52 m) := by
  have hbias : (e + (Format.binary64.exponentBias : Int) + (Format.binary64.mantissaBitsWithoutImplicit : Int)).toNat =
      (e + 1075).toNat := by
    simp only [Format.exponentBias]
    omega
  have hbits : m.log2 + 1 = Format.binary64.mantissaBits ↔ m.log2 = 52 := by
    simp only [Format.mantissaBits]
    omega
  have hinf : 2 ^ Format.binary64.exponentBits ≤ (e + 1075).toNat + 1 ↔ 971 < e := by
    simp only
    omega
  unfold UnpackedFloat.pack
  simp only [hbias, hbits, hinf]

theorem unpack_packedInfinity (s : Sign) :
    UnpackedFloat.unpack Format.binary64 (packedInfinity Format.binary64 s) = .infinity s := by
  cases s with
  | positive => rfl
  | negative => rfl

theorem toNat_exponent {e : Int} (he : e ≤ 971) :
    (BitVec.ofNat 11 (e + 1075).toNat).toNat = (e + 1075).toNat ∧ BitVec.ofNat 11 (e + 1075).toNat ≠ -1#11 := by
  have hbits : (BitVec.ofNat 11 (e + 1075).toNat).toNat = (e + 1075).toNat := by
    rw [BitVec.toNat_ofNat, Nat.mod_eq_of_lt (by omega)]
  refine ⟨hbits, fun hones => ?_⟩
  have hmax : (e + 1075).toNat = 2047 := hbits.symm.trans (congrArg BitVec.toNat hones)
  omega

theorem upTo_unpack_packComponents {bound : Int} (hlow : -1074 ≤ bound) (s : Sign) {exponent : BitVec 11}
    (mantissa : BitVec 52) (hones : exponent ≠ -1#11) (h : (exponent.toNat : Int) - 1075 ≤ bound) :
    UpTo bound (UnpackedFloat.unpack Format.binary64 (packComponents Format.binary64 s exponent mantissa)) := by
  refine upTo_unpack hlow ?_ ?_
  · rwa [unpackExponent_packComponents]
  · rwa [unpackExponent_packComponents]

theorem upTo_unpack_pack_finite {bound : Int} (hlow : -1074 ≤ bound) (hhigh : bound ≤ 971) (s : Sign) (m : Nat)
    {e : Int} (hm : 0 < m) (he : e ≤ bound) : UpTo bound (Float.Model.pack (.finite s m e hm)).unpack := by
  obtain ⟨hbits, hones⟩ := toNat_exponent (Int.le_trans he hhigh)
  show UpTo bound (UnpackedFloat.unpack Format.binary64 (UnpackedFloat.pack Format.binary64 (.finite s m e hm)))
  rw [pack_finite, if_neg (by omega)]
  split
  · exact upTo_unpack_packComponents hlow s _ hones (by omega)
  · exact upTo_unpack_packComponents hlow s _ (by decide) (Int.le_trans (by decide) hlow)

theorem upTo_unpack_pack {bound : Int} (hlow : -1074 ≤ bound) (hhigh : bound ≤ 971) {u : UnpackedFloat}
    (hu : UpTo bound u) : UpTo bound (Float.Model.pack u).unpack := by
  cases hu with
  | zero s => exact upTo_unpack_packComponents hlow s 0#52 (by decide) (Int.le_trans (by decide) hlow)
  | finite short low => exact upTo_unpack_pack_finite hlow hhigh _ _ _ low

/-- What is finite is packed as a finite float, or as an infinity if it is too great. -/
theorem isFinite_unpack_pack {u : UnpackedFloat} (hu : u.isFinite = true)
    (hpacked : (Float.Model.pack u).unpack.isInf = false) : (Float.Model.pack u).unpack.isFinite = true := by
  cases u with
  | infinity s => cases hu
  | notANumber => cases hu
  | zero s => exact (upTo_unpack_packComponents (by decide : -1074 ≤ 971) s 0#52 (by decide) (by decide)).isFinite
  | finite s m e hm =>
    by_cases he : e ≤ 971
    · exact (upTo_unpack_pack_finite (by decide) (by decide) s m hm he).isFinite
    · have hinf : (Float.Model.pack (.finite s m e hm)).unpack = .infinity s := by
        show UnpackedFloat.unpack Format.binary64 (UnpackedFloat.pack Format.binary64 (.finite s m e hm)) = _
        rw [pack_finite, if_pos (Int.not_le.mp he), unpack_packedInfinity]
      rw [hinf] at hpacked
      cases hpacked

theorem atLeast_unpack_pack {bound : Int} (hlow : -1074 ≤ bound) {u : UnpackedFloat} (hu : AtLeast bound u) :
    AtLeast bound (Float.Model.pack u).unpack := by
  cases hu with
  | infinity s =>
    show AtLeast bound (UnpackedFloat.unpack Format.binary64 (packedInfinity Format.binary64 s))
    rw [unpack_packedInfinity]
    exact .infinity s
  | @finite s m e hm hlog he =>
    show AtLeast bound (UnpackedFloat.unpack Format.binary64 (UnpackedFloat.pack Format.binary64 (.finite s m e hm)))
    rw [pack_finite, if_pos hlog]
    split
    · rw [unpack_packedInfinity]
      exact .infinity s
    rename_i hle
    obtain ⟨hbits, hones⟩ := toNat_exponent (Int.not_lt.mp hle)
    unfold UnpackedFloat.unpack
    have hzero : BitVec.ofNat 11 (e + 1075).toNat ≠ 0#11 := by
      intro hzero
      have hnone : (e + 1075).toNat = 0 := hbits.symm.trans (congrArg BitVec.toNat hzero)
      omega
    simp only [unpackExponent_packComponents, unpackMantissa_packComponents, if_neg hones, if_neg hzero]
    refine .finite (log2_one_append _) ?_
    simp only [Format.exponentBias]
    omega

/-! ## Rounding -/

/-- By how many bits a mantissa is too long for a float with this exponent. -/
def excess (m : Nat) (e : Int) : Nat := (max ((m.log2 : Int) + e - 52) (-1074) - e).toNat

theorem targetExponent_eq (size : Int) : Format.binary64.targetExponent size = max (size - 53) (-1074) := by
  unfold Format.targetExponent Format.minExponent Format.mantissaBits
  norm_num

theorem shiftToTargetExponent_eq (m : Nat) (e : Int) (accuracy : Accuracy) :
    shiftToTargetExponent Format.binary64 m e accuracy =
      (ExtendedMantissa.ofMantissaAndAccuracy m accuracy >>> excess m e, e + excess m e) := by
  have hexcess : (Format.binary64.targetExponent (totalExponent m e) - e).toNat = excess m e := by
    rw [targetExponent_eq]
    unfold totalExponent excess
    omega
  unfold shiftToTargetExponent shiftToExponent
  simp only [hexcess]

theorem mantissa_shiftRight (extended : ExtendedMantissa) (n : Nat) :
    (extended >>> n).mantissa = extended.mantissa / 2 ^ n := by
  induction n with
  | zero => simp [HShiftRight.hShiftRight, Nat.repeat]
  | succ n ih =>
    show (extended >>> n).mantissa / 2 = _
    rw [ih, Nat.div_div_eq_div_mul, Nat.pow_succ]

theorem mantissa_ofMantissaAndAccuracy (m : Nat) (accuracy : Accuracy) :
    (ExtendedMantissa.ofMantissaAndAccuracy m accuracy).mantissa = m := by
  cases accuracy with
  | exact => rfl
  | inexact order => cases order <;> rfl

theorem roundedMantissa_bounds (extended : ExtendedMantissa) :
    extended.mantissa ≤ extended.roundedMantissa ∧ extended.roundedMantissa ≤ extended.mantissa + 1 := by
  unfold ExtendedMantissa.roundedMantissa Accuracy.roundToNearestEven
  split
  · omega
  · omega
  · omega
  · omega

/-- A mantissa is cut off to 53 bits, rounded up or not, and cut off again if it is too long then. -/
theorem roundWithAccuracy_eq (s : Sign) (m : Nat) (e : Int) (accuracy : Accuracy) :
    ∃ r, m / 2 ^ excess m e ≤ r ∧ r ≤ m / 2 ^ excess m e + 1 ∧
      roundWithAccuracy Format.binary64 s m e accuracy =
        if h : r / 2 ^ excess r (e + excess m e) = 0 then .zero s
        else .finite s (r / 2 ^ excess r (e + excess m e)) (e + excess m e + excess r (e + excess m e))
          (Nat.pos_of_ne_zero h) := by
  have hbounds := roundedMantissa_bounds (ExtendedMantissa.ofMantissaAndAccuracy m accuracy >>> excess m e)
  rw [mantissa_shiftRight, mantissa_ofMantissaAndAccuracy] at hbounds
  refine ⟨_, hbounds.1, hbounds.2, ?_⟩
  unfold roundWithAccuracy
  simp only [shiftToTargetExponent_eq, mantissa_shiftRight, mantissa_ofMantissaAndAccuracy]

theorem log2_rounded_le {m r : Nat} {e : Int} (h : r ≤ m / 2 ^ excess m e + 1) : r.log2 ≤ 53 := by
  have hlog : (m / 2 ^ excess m e).log2 < 53 := by
    rw [log2_div_two_pow]
    unfold excess
    omega
  have hlt : m / 2 ^ excess m e < 2 ^ 53 := by
    by_cases hzero : m / 2 ^ excess m e = 0
    · rw [hzero]
      decide
    · exact (Nat.log2_lt hzero).mp hlog
  have hle : r ≤ 2 ^ 53 := by omega
  exact Nat.le_trans (log2_mono hle) (Nat.le_of_eq Nat.log2_two_pow)

/-- Rounding leaves an exponent that is at most one above that of the number and the one that its size asks for. -/
theorem upTo_roundWithAccuracy (s : Sign) {m : Nat} {e bound : Int} (accuracy : Accuracy) (hlow : -1074 < bound)
    (he : e < bound) (hsize : (m.log2 : Int) + e - 52 < bound) :
    UpTo bound (roundWithAccuracy Format.binary64 s m e accuracy) := by
  obtain ⟨r, -, hr, heq⟩ := roundWithAccuracy_eq s m e accuracy
  have hlog := log2_rounded_le hr
  rw [heq]
  split
  · exact .zero s
  · refine .finite ?_ ?_
    · rw [log2_div_two_pow]
      unfold excess
      omega
    · unfold excess
      omega

/-- What is long enough keeps its size when it is rounded. -/
theorem atLeast_roundWithAccuracy (s : Sign) {m : Nat} {e bound : Int} (accuracy : Accuracy) (hlow : -1074 ≤ bound)
    (hm : 52 ≤ m.log2) (hsize : bound ≤ (m.log2 : Int) + e - 52) :
    AtLeast bound (roundWithAccuracy Format.binary64 s m e accuracy) := by
  obtain ⟨r, hrlow, hr, heq⟩ := roundWithAccuracy_eq s m e accuracy
  have hfirst : excess m e = m.log2 - 52 := by
    unfold excess
    omega
  have hlow := log2_mono hrlow
  have hhigh := log2_rounded_le hr
  rw [log2_div_two_pow, hfirst] at hlow
  have hsecond : excess r (e + excess m e) = r.log2 - 52 := by
    unfold excess
    omega
  have hlog : (r / 2 ^ excess r (e + excess m e)).log2 = 52 := by
    rw [log2_div_two_pow, hsecond]
    omega
  rw [heq]
  split
  · rename_i hzero
    rw [hzero] at hlog
    cases hlog
  · exact .finite hlog (by omega)

theorem isFinite_roundWithAccuracy (s : Sign) (m : Nat) (e : Int) (accuracy : Accuracy) :
    (roundWithAccuracy Format.binary64 s m e accuracy).isFinite = true := by
  obtain ⟨r, -, -, heq⟩ := roundWithAccuracy_eq s m e accuracy
  rw [heq]
  split
  · rfl
  · rfl

/-! ## Arithmetic -/

/-- The exponent of a quotient by 8 or more, which is 2 ^ 52 times 2 ^ (-49), stays within the bound of an integer of
    64 bits. -/
theorem upTo_div_unpacked {u v : UnpackedFloat} (hu : UpTo 12 u) (hv : AtLeast (-49) v) :
    UpTo 12 (UnpackedFloat.div Format.binary64 u v) := by
  cases hu with
  | zero s =>
    cases hv with
    | infinity t => exact .zero _
    | finite long high => exact .zero _
  | @finite s m e hm short low =>
    cases hv with
    | infinity t => exact .zero _
    | @finite t n f hn long high =>
      -- the quotient is as long as the dividend less the divisor, whatever it is shifted by before
      have hshift := log2_shiftLeft_le m (e - f - min (e - f) (max ((m.log2 : Int) + e - f - 105) (-1074))).toNat
      have hdiv := log2_div_le (m <<< (e - f - min (e - f) (max ((m.log2 : Int) + e - f - 105) (-1074))).toNat) n
      have htarget : Format.binary64.targetExponent (totalExponent m e - totalExponent n f) =
          max ((m.log2 : Int) + e - f - 105) (-1074) := by
        rw [targetExponent_eq]
        unfold totalExponent
        omega
      unfold UnpackedFloat.div divCore
      simp only [htarget]
      refine upTo_roundWithAccuracy _ _ (by decide) ?_ ?_
      · omega
      · omega

/-- Dividing by 8 or more keeps a float within the bound of an integer of 64 bits. -/
theorem upTo_div {x y : Float} (hx : UpTo 12 x.toModel.unpack) (hy : AtLeast (-49) y.toModel.unpack) :
    UpTo 12 (x / y).toModel.unpack :=
  upTo_unpack_pack (by decide) (by decide) (upTo_div_unpacked hx hy)

theorem upTo_round (s : Sign) {m : Nat} (hm : m.log2 ≤ 63) : UpTo 12 (UnpackedFloat.round Format.binary64 s m 0) := by
  have hshift := log2_shiftLeft_le m (0 - Format.binary64.targetExponent (totalExponent m 0)).toNat
  rw [targetExponent_eq] at hshift
  unfold UnpackedFloat.round decreaseExponent
  rw [targetExponent_eq]
  unfold totalExponent at *
  exact upTo_roundWithAccuracy s .exact (by decide) (by omega) (by omega)

/-- An integer of 64 bits is rounded to 2 ^ 64 at most, which is 2 ^ 52 times 2 ^ 12. -/
theorem upTo_toFloat (n : UInt64) : UpTo 12 n.toFloat.toModel.unpack := by
  refine upTo_unpack_pack (by decide) (by decide) ?_
  have hlog : n.toNat.log2 ≤ 63 := by
    by_cases hzero : n.toNat = 0
    · rw [hzero]
      decide
    · exact Nat.le_of_lt_succ ((Nat.log2_lt hzero).mpr n.toNat_lt)
  unfold UnpackedFloat.ofUInt64 UnpackedFloat.ofNat UnpackedFloat.ofInt UnpackedFloat.normalize
  split
  · rw [show (-(n.toNat : Int)).toNat = 0 by omega]
    exact upTo_round .negative (by decide)
  · exact .zero .positive
  · exact upTo_round .positive (by simpa using hlog)

theorem UpTo.neg {bound : Int} {u : UnpackedFloat} (hu : UpTo bound u) : UpTo bound u.neg := by
  cases hu with
  | zero s => exact .zero _
  | finite short low => exact .finite short low

theorem isFinite_neg {x : Float} (h : x.isFinite = true) : (-x).isFinite = true :=
  (upTo_unpack_pack (by decide) (by decide) (upTo_of_isFinite h).neg).isFinite

theorem UpTo.isFinite_mul {bound : Int} {u v : UnpackedFloat} (hu : UpTo bound u) (hv : UpTo bound v) :
    (UnpackedFloat.mul Format.binary64 u v).isFinite = true := by
  cases hu with
  | zero s =>
    cases hv with
    | zero t => rfl
    | finite short low => rfl
  | finite short low =>
    cases hv with
    | zero t => rfl
    | finite short low => exact isFinite_roundWithAccuracy _ _ _ _

theorem isFinite_mul {x y : Float} (hx : x.isFinite = true) (hy : y.isFinite = true)
    (hproduct : (x * y).isInf = false) : (x * y).isFinite = true :=
  isFinite_unpack_pack ((upTo_of_isFinite hx).isFinite_mul (upTo_of_isFinite hy)) hproduct

end Rulebook.Binary64

namespace Rulebook.Json

open Binary64
open Float.Model (Format UnpackedFloat)
open Float.Model.UnpackedFloat

/-! ## Powers of ten -/

/-- A power of ten that is not exact is rounded from the integer. -/
theorem toModel_tenTo {e : Nat} (hlow : 22 < e) (hhigh : e ≤ 308) :
    (tenTo e).toModel =
      Float.Model.pack (roundWithAccuracy Format.binary64 .positive ((1 <<< 53) * 10 ^ e) (-53) .exact) := by
  have hexact : ¬ (1 < 2 ^ 53 ∧ e ≤ 22) := by omega
  unfold tenTo Float.ofScientific
  rw [dif_neg hexact]
  show Float.Model.pack (UnpackedFloat.ofScientific Format.binary64 1 (Int.ofNat e)) = _
  unfold UnpackedFloat.ofScientific
  rw [dif_neg (by decide), if_neg (by simp; omega), if_neg (by simp; omega), if_pos (by simp)]
  rfl

theorem log2_power_mono {d e : Nat} (h : d ≤ e) : ((1 <<< 53) * 10 ^ d).log2 ≤ ((1 <<< 53) * 10 ^ e).log2 :=
  log2_mono (Nat.mul_le_mul_left _ (Nat.pow_le_pow_right (by decide) h))

theorem atLeast_tenTo {e : Nat} (hlow : 0 < e) (hhigh : e ≤ 308) : AtLeast (-49) (tenTo e).toModel.unpack := by
  by_cases hexact : e ≤ 22
  · have hall : ∀ e ≤ 22, 0 < e → AtLeast (-49) (tenTo e).toModel.unpack := by decide +kernel
    exact hall e hexact hlow
  · have hlog := @log2_power_mono 1 e hlow
    have hleast : ((1 <<< 53) * 10 ^ 1).log2 = 56 := by decide +kernel
    rw [hleast] at hlog
    rw [toModel_tenTo (by omega) hhigh]
    exact atLeast_unpack_pack (by decide) (atLeast_roundWithAccuracy .positive .exact (by decide) (by omega) (by omega))

theorem isFinite_tenTo {e : Nat} (h : e ≤ 308) : (tenTo e).isFinite = true := by
  by_cases hexact : e ≤ 22
  · have hall : ∀ e ≤ 22, (tenTo e).isFinite = true := by decide +kernel
    exact hall e hexact
  by_cases hmax : e = 308
  · -- the greatest power has the greatest exponent, and the bound on rounding allows one more
    subst hmax
    decide +kernel
  · have hlog := @log2_power_mono e 307 (by omega)
    have hgreatest : ((1 <<< 53) * 10 ^ 307).log2 = 1072 := by decide +kernel
    rw [hgreatest] at hlog
    show (tenTo e).toModel.unpack.isFinite = true
    rw [toModel_tenTo (by omega) h]
    have hround : UpTo 971 (roundWithAccuracy Format.binary64 .positive ((1 <<< 53) * 10 ^ e) (-53) .exact) :=
      upTo_roundWithAccuracy .positive .exact (by decide) (by decide) (by omega)
    exact (upTo_unpack_pack (by decide) (by decide) hround).isFinite

/-! ## Literals -/

theorem upTo_divideByTens {x : Float} {e : Nat} (hx : UpTo 12 x.toModel.unpack) (he : 0 < e) :
    UpTo 12 (divideByTens x e).toModel.unpack := by
  fun_induction divideByTens x e with
  | case1 x e h => exact upTo_div hx (atLeast_tenTo he h)
  | case2 x e h hzero => exact hx
  | case3 x e h hzero ih =>
    have hlarge := @atLeast_tenTo 308 (by decide) (Nat.le_refl 308)
    exact ih (upTo_div hx hlarge) (by omega)

theorem isFinite_scaled {n : Nat} {e : Int} {x : Float} (h : scaled n e = .ok x) : x.isFinite = true := by
  have hn := upTo_toFloat (UInt64.ofNat n)
  unfold scaled at h
  simp only at h
  split at h
  · rename_i hneg
    obtain rfl := Except.ok.inj h
    exact (upTo_divideByTens hn (by omega)).isFinite
  split at h
  · rename_i hle
    split at h
    · cases h
    · rename_i hproduct
      obtain rfl := Except.ok.inj h
      exact isFinite_mul hn.isFinite (isFinite_tenTo (by omega)) (by simpa using hproduct)
  split at h
  · obtain rfl := Except.ok.inj h
    exact hn.isFinite
  · cases h

theorem isFinite_magnitude {l : Literal} {x : Float} (h : l.magnitude = .ok x) : x.isFinite = true := by
  unfold Literal.magnitude at h
  simp only at h
  split at h
  · exact isFinite_scaled h
  split at h
  · exact isFinite_scaled h
  split at h
  · cases h
  · obtain rfl := Except.ok.inj h
    decide +kernel

/-- A literal never stands for an infinity or for what is no number. -/
theorem isFinite_of_number {l : Literal} {x : Float} (h : l.number = .ok (.float x)) : x.isFinite = true := by
  have hfloat : (l.magnitude.map fun y => Number.float (if l.negative then -y else y)) = .ok (.float x) →
      x.isFinite = true := by
    intro h
    cases hm : l.magnitude with
    | error fault => simp [hm, Except.map] at h
    | ok y =>
      have hy := isFinite_magnitude hm
      rw [hm] at h
      obtain rfl := Number.float.inj (Except.ok.inj h)
      split
      · exact isFinite_neg hy
      · exact hy
  unfold Literal.number at h
  simp only at h
  split at h
  · split at h
    · rename_i hnegative
      split at h
      · cases h
      · simp only [hnegative, if_true] at hfloat
        exact hfloat h
    · split at h
      · cases h
      · cases h
  · exact hfloat h

end Rulebook.Json
