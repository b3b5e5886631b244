import Mathlib.Algebra.Ring.Int.Defs
import Mathlib.Algebra.Ring.Nat
import Mathlib.Data.Nat.Log

/-!
# Integers as doubles

The double that stands for an integer of 64 bits is finite.  Rounding a mantissa of at most 128 bits
to one of 53 bits raises the exponent by a bounded number (`exponentLe_roundWithAccuracy`), and a
number with an exponent far enough below the greatest one is packed into bits without becoming
infinite (`below_unpack_pack`).
-/

namespace OracleMarkets.Double

open Float.Model Float.Model.UnpackedFloat

/-! ## Magnitudes -/

/-- A finite number of which the mantissa has at most 53 bits and the exponent is at most `b`. -/
def Below (b : Int) : UnpackedFloat → Prop
  | .zero _ => True
  | .finite _ m e _ => m < 2 ^ 53 ∧ e ≤ b
  | .infinity _ | .notANumber => False

/-- A finite number of which the exponent is at most `b`. -/
def ExponentLe (b : Int) : UnpackedFloat → Prop
  | .zero _ => True
  | .finite _ _ e _ => e ≤ b
  | .infinity _ | .notANumber => False

theorem Below.isFinite {b : Int} {f : UnpackedFloat} (h : Below b f) : f.isFinite = true := by
  cases f with
  | infinity s => exact h.elim
  | notANumber => exact h.elim
  | zero s => rfl
  | finite s m e hm => rfl

theorem Below.exponentLe_neg {b : Int} {f : UnpackedFloat} (h : Below b f) :
    ExponentLe b f.neg := by
  cases f with
  | infinity s => exact h.elim
  | notANumber => exact h.elim
  | zero s => trivial
  | finite s m e hm => exact h.2

/-! ## Rounding -/

/-- Shifting to the right does not raise the mantissa. -/
theorem mantissa_shiftRight_le (em : ExtendedMantissa) (k : Nat) :
    (em >>> k).mantissa ≤ em.mantissa := by
  induction k with
  | zero => exact le_rfl
  | succ k ih =>
    have hhalf : (em >>> (k + 1)).mantissa = (em >>> k).mantissa / 2 := rfl
    rw [hhalf]
    exact (Nat.div_le_self _ 2).trans ih

/-- Rounding raises the mantissa by one at most. -/
theorem roundedMantissa_le (em : ExtendedMantissa) : em.roundedMantissa ≤ em.mantissa + 1 := by
  obtain ⟨m, r, s⟩ := em
  cases r <;> cases s <;>
    simp only [ExtendedMantissa.roundedMantissa, ExtendedMantissa.accuracy,
      Accuracy.roundToNearestEven] <;> omega

/-- Shifting to the target exponent does not raise the mantissa, and it raises the exponent by no
more than the number of bits that are too many. -/
theorem shiftToTargetExponent_le {m k : Nat} (hm : m < 2 ^ (k + 1)) (e : Int) :
    (shiftToTargetExponent Format.binary64 m e .exact).1.mantissa ≤ m ∧
      (shiftToTargetExponent Format.binary64 m e .exact).2 ≤ max (max e (k + e - 52)) (-1074) := by
  refine ⟨mantissa_shiftRight_le _ _, ?_⟩
  have hlog : m.log2 ≤ k := by
    rcases Nat.eq_zero_or_pos m with rfl | hpos
    · exact Nat.zero_le k
    · exact Nat.lt_succ_iff.1 ((Nat.log2_lt hpos.ne').2 hm)
  have hmin : Format.binary64.minExponent = -1074 := rfl
  have hbits : (Format.binary64.mantissaBits : Int) = 53 := rfl
  show e + ((Format.binary64.targetExponent (totalExponent m e) - e).toNat : Int) ≤ _
  rw [Format.targetExponent, hmin, hbits, totalExponent]
  omega

/-- A number is zero where its mantissa is, so its exponent does not count there. -/
theorem exponentLe_normal {m : Nat} {e b : Int} (he : e ≤ b) (s : Sign) :
    ExponentLe b (if h : m = 0 then .zero s else .finite s m e (Nat.pos_of_ne_zero h)) := by
  by_cases h : m = 0
  · rw [dif_pos h]
    trivial
  · rw [dif_neg h]
    exact he

/-- Rounding a mantissa of at most 128 bits raises the exponent by a bounded number. -/
theorem exponentLe_roundWithAccuracy {m : Nat} (hm : m < 2 ^ 128) {e b : Int} (he : e ≤ b)
    (hb : 0 ≤ b) (s : Sign) :
    ExponentLe (b + 151) (roundWithAccuracy Format.binary64 s m e .exact) := by
  obtain ⟨hm₁, he₁⟩ := shiftToTargetExponent_le (k := 127) hm e
  have hrounded := roundedMantissa_le (shiftToTargetExponent Format.binary64 m e .exact).1
  obtain ⟨-, he₂⟩ := shiftToTargetExponent_le (k := 128)
    (m := (shiftToTargetExponent Format.binary64 m e .exact).1.roundedMantissa) (by omega)
    (shiftToTargetExponent Format.binary64 m e .exact).2
  exact exponentLe_normal (he₂.trans (by omega)) s

/-- An integer of at most 64 bits has a small exponent. -/
theorem exponentLe_ofNat {n : Nat} (hn : n ≤ 2 ^ 64) :
    ExponentLe 151 (UnpackedFloat.ofNat Format.binary64 n) := by
  have hnat : compare (n : Int) 0 ≠ .lt := by
    rw [Ne, compare_lt_iff_lt]
    omega
  unfold UnpackedFloat.ofNat UnpackedFloat.ofInt UnpackedFloat.normalize
  split
  · next hlt => exact absurd hlt hnat
  · trivial
  · rw [Int.toNat_natCast, UnpackedFloat.round, UnpackedFloat.decreaseExponent]
    have hshift : (0 - Format.binary64.targetExponent (totalExponent n 0)).toNat ≤ 52 := by
      rw [Format.targetExponent, totalExponent]
      show (0 - max (_ - (53 : Int)) _).toNat ≤ 52
      omega
    refine exponentLe_roundWithAccuracy ?_ (b := 0) (by omega) le_rfl .positive
    rw [Nat.shiftLeft_eq]
    calc n * 2 ^ _ ≤ 2 ^ 64 * 2 ^ 52 := Nat.mul_le_mul hn (Nat.pow_le_pow_right (by decide) hshift)
      _ < 2 ^ 128 := by decide

/-! ## Packing -/

theorem mantissa_lt (y : BitVec 52) : (1#1 ++ y).toNat < 2 ^ 53 := (1#1 ++ y).isLt

/-- Bits of which the exponent is not too large are a finite number. -/
theorem below_unpack {b : Int} (hb : 0 ≤ b) (hb' : b ≤ 900) {v : BitVec Format.binary64.numBits}
    (hv : ((unpackExponent v).toNat : Int) ≤ b + 1075) :
    Below b (UnpackedFloat.unpack Format.binary64 v) := by
  have hne : unpackExponent v ≠ -1#_ := by
    intro hall
    have hmax : (unpackExponent v).toNat = 2047 := by
      rw [hall]
      rfl
    omega
  have hbias : ((Format.binary64.exponentBias : Int) + (52 : Nat)) = 1075 := rfl
  unfold UnpackedFloat.unpack
  rw [if_neg hne]
  by_cases hexponent : unpackExponent v = 0#_
  · rw [if_pos hexponent]
    by_cases hmantissa : unpackMantissa v = 0#_
    · rw [dif_pos hmantissa]
      trivial
    · rw [dif_neg hmantissa]
      refine ⟨(unpackMantissa v).isLt.trans (by decide), ?_⟩
      rw [hexponent]
      show (0 : Int) - 1075 + 1 ≤ b
      omega
  · rw [if_neg hexponent]
    refine ⟨mantissa_lt (unpackMantissa v), ?_⟩
    rw [hbias]
    omega

theorem below_unpack_packComponents {b : Int} (hb : 0 ≤ b) (hb' : b ≤ 900)
    (s : Sign) (x : BitVec 11) (y : BitVec 52) (hx : (x.toNat : Int) ≤ b + 1075) :
    Below b (UnpackedFloat.unpack Format.binary64 (packComponents Format.binary64 s x y)) := by
  refine below_unpack hb hb' ?_
  rwa [unpackExponent_packComponents]

/-- The bits of a finite number. -/
theorem pack_finite (s : Sign) {m : Nat} (e : Int) (hm : 0 < m) :
    UnpackedFloat.pack Format.binary64 (.finite s m e hm) =
      let exponent := (e + (1023 : Nat) + (52 : Nat)).toNat
      if 2048 ≤ exponent + 1 then packedInfinity Format.binary64 s
      else if m.log2 + 1 = 53 then
        packComponents Format.binary64 s (.ofNat 11 exponent) (.ofNat 52 m)
      else packComponents Format.binary64 s 0#11 (.ofNat 52 m) := rfl

/-- A number of bounded exponent keeps its magnitude as bits. -/
theorem below_unpack_pack {b : Int} (hb : 0 ≤ b) (hb' : b ≤ 900) {f : UnpackedFloat}
    (h : ExponentLe b f) : Below b (Float.Model.pack f).unpack := by
  have hzero : ((0#11).toNat : Int) ≤ b + 1075 := by
    show (0 : Int) ≤ _
    omega
  cases f with
  | infinity s => exact h.elim
  | notANumber => exact h.elim
  | zero s => exact below_unpack_packComponents hb hb' s _ _ hzero
  | finite s m e hm =>
    have he : e ≤ b := h
    show Below b (UnpackedFloat.unpack _ (UnpackedFloat.pack _ _))
    rw [pack_finite]
    dsimp only
    rw [if_neg (by omega)]
    split
    · refine below_unpack_packComponents hb hb' s _ _ ?_
      rw [BitVec.toNat_ofNat, Nat.mod_eq_of_lt (by omega)]
      omega
    · exact below_unpack_packComponents hb hb' s _ _ hzero

/-! ## Integers -/

/-- A product of at most 128 bits has a small exponent. -/
theorem exponentLe_mul_finite {m m' : Nat} {e e' b : Int} {hm : 0 < m} {hm' : 0 < m'}
    (h : m * m' < 2 ^ 128) (he : e + e' ≤ b) (hb : 0 ≤ b) (s s' : Sign) :
    ExponentLe (b + 151)
      (UnpackedFloat.mul Format.binary64 (.finite s m e hm) (.finite s' m' e' hm')) :=
  exponentLe_roundWithAccuracy h he hb _

/-- A product of small numbers is small. -/
theorem exponentLe_mul {b : Int} (hb : 0 ≤ b) {f g : UnpackedFloat} (hf : Below b f)
    (hg : Below 0 g) : ExponentLe (b + 151) (UnpackedFloat.mul Format.binary64 f g) := by
  cases f with
  | infinity s => exact hf.elim
  | notANumber => exact hf.elim
  | zero s =>
    cases g with
    | infinity s => exact hg.elim
    | notANumber => exact hg.elim
    | zero s => trivial
    | finite s m e hm => trivial
  | finite s m e hm =>
    cases g with
    | infinity s => exact hg.elim
    | notANumber => exact hg.elim
    | zero s => trivial
    | finite s' m' e' hm' =>
      have he : e + e' ≤ b := Int.add_le_of_le_sub_right (by have := hf.2; have := hg.2; omega)
      refine exponentLe_mul_finite ?_ he hb s s'
      calc m * m' ≤ 2 ^ 53 * 2 ^ 53 := Nat.mul_le_mul hf.1.le hg.1.le
        _ < 2 ^ 128 := by decide

theorem below_one : Below 0 (Float.ofBits 0x3FF0000000000000).toModel.unpack := by
  have hone : (Float.ofBits 0x3FF0000000000000).toModel =
      Float.Model.pack (.finite .positive (2 ^ 52) (-52) (by decide)) := by decide +kernel
  rw [hone]
  exact below_unpack_pack le_rfl (by decide) (show (-52 : Int) ≤ 0 by decide)

/-- A natural number of at most 64 bits has a small double. -/
theorem below_ofNat {n : Nat} (hn : n ≤ 2 ^ 64) : Below 302 (Float.ofNat n).toModel.unpack := by
  show Below 302 (Float.ofScientific n false 0).toModel.unpack
  unfold Float.ofScientific
  split
  · next hsmall =>
    -- The number is exact, and it is multiplied by one.
    have hcast : n.toUInt64.toNat = n := Nat.mod_eq_of_lt (by omega)
    have hnum : Below 151 (n.toUInt64.toFloat).toModel.unpack := by
      refine below_unpack_pack (by decide) (by decide) ?_
      show ExponentLe 151 (UnpackedFloat.ofNat _ n.toUInt64.toNat)
      rw [hcast]
      exact exponentLe_ofNat hn
    exact below_unpack_pack (by decide) (by decide) (exponentLe_mul (by decide) hnum below_one)
  · show Below 302 (Float.Model.pack (UnpackedFloat.ofScientific _ n 0)).unpack
    refine below_unpack_pack (by decide) (by decide) ?_
    unfold UnpackedFloat.ofScientific
    by_cases hzero : n = 0
    · rw [dif_pos hzero]
      trivial
    · have hhuge : ¬(0 : Int) < -((2 : Int) ^ Format.binary64.exponentBits + (n.log2 : Int)) := by
        show ¬(0 : Int) < -((2048 : Int) + (n.log2 : Int))
        omega
      rw [dif_neg hzero, if_neg (by decide), if_neg hhuge, if_pos le_rfl]
      have hbits : n <<< Format.binary64.mantissaBits * 10 ^ Int.toNat 0 < 2 ^ 128 := by
        show n <<< 53 * 1 < 2 ^ 128
        rw [Nat.shiftLeft_eq]
        omega
      exact exponentLe_mul_finite (b := 151) hbits (by decide) (by decide) .positive .positive

/-- The double of an integer of 64 bits is finite. -/
theorem isFinite_ofInt {n : Int} (hn : -2 ^ 63 ≤ n) (hn' : n < 2 ^ 64) :
    (Float.ofInt n).isFinite = true := by
  cases n with
  | ofNat n => exact (below_ofNat (Int.ofNat_le.1 hn'.le)).isFinite
  | negSucc n =>
    have hneg := (below_ofNat (n := n + 1) (by omega)).exponentLe_neg
    exact (below_unpack_pack (by decide) (by decide) hneg).isFinite

end OracleMarkets.Double
