import Mathlib.Algebra.Group.Nat.Defs
import Workflow.Retry.Policy

/-!
# Whole numbers as doubles

A whole number of 64 bits becomes the nearest number that a double holds, and of two that are
equally near the one with an even mantissa. `nearest` is this number, and `Holds` says of the parts
of a double which whole number they are. Two such doubles are equal when their whole numbers are, so
numbers are told apart as doubles exactly when their nearest numbers differ.
-/

namespace Workflow.Decimal

open Float.Model (UnpackedFloat Format totalExponent)
open Float.Model.UnpackedFloat

theorem roundToEven_bounds (n d : Nat) :
    n / d ≤ Span.roundToEven n d ∧ Span.roundToEven n d ≤ n / d + 1 := by
  rw [Span.roundToEven]
  split <;> omega

theorem roundToEven_one (n : Nat) : Span.roundToEven n 1 = n := by
  rw [Span.roundToEven]
  simp [Nat.mod_one]

theorem roundToEven_mul_right (n d : Nat) {c : Nat} (hc : 0 < c) :
    Span.roundToEven (n * c) (d * c) = Span.roundToEven n d := by
  have hrest : n * c % (d * c) = n % d * c := Nat.mul_mod_mul_right c n d
  have hlt : d * c < 2 * (n % d * c) ↔ d < 2 * (n % d) := by
    rw [← Nat.mul_assoc, Nat.mul_lt_mul_right hc]
  have heq : 2 * (n % d * c) = d * c ↔ 2 * (n % d) = d := by
    rw [← Nat.mul_assoc, Nat.mul_left_inj (Nat.ne_of_gt hc)]
  rw [Span.roundToEven, Span.roundToEven, hrest, Nat.mul_div_mul_right n d hc]
  simp only [hlt, heq]

/-- What is rounded lies no more than half a unit away. -/
theorem roundToEven_near (n : Nat) {d : Nat} (hd : 0 < d) :
    2 * n ≤ 2 * (Span.roundToEven n d * d) + d ∧ 2 * (Span.roundToEven n d * d) ≤ 2 * n + d := by
  have hparts : n / d * d + n % d = n := Nat.div_add_mod' n d
  have hlow : n % d < d := Nat.mod_lt n hd
  have hup : (n / d + 1) * d = n / d * d + d := Nat.succ_mul _ d
  rw [Span.roundToEven]
  simp only [Bool.or_eq_true, Bool.and_eq_true, decide_eq_true_eq]
  split
  · rw [hup]
    omega
  · omega

/-- The whole number nearest to `n` that has 53 digits in binary, up to zeros at its end. -/
def nearest (n : Nat) : Nat :=
  Span.roundToEven n (2 ^ (n.log2 - 52)) * 2 ^ (n.log2 - 52)

theorem log2_bounds {n : Nat} (hpos : 0 < n) : 2 ^ n.log2 ≤ n ∧ n < 2 ^ (n.log2 + 1) :=
  ⟨Nat.log2_self_le (Nat.ne_of_gt hpos), Nat.lt_log2_self⟩

theorem nearest_of_lt {n : Nat} (h : n < 2 ^ 53) : nearest n = n := by
  have hlog : n.log2 - 52 = 0 := by
    rcases Nat.eq_zero_or_pos n with rfl | hpos
    · decide
    · have hlt := (Nat.log2_lt (Nat.ne_of_gt hpos)).2 h
      omega
  rw [nearest, hlog, Nat.pow_zero, roundToEven_one, Nat.mul_one]

theorem le_nearest {n : Nat} (h : 2 ^ 53 ≤ n) : 2 ^ 53 ≤ nearest n := by
  have hpos : 0 < n := by omega
  have hlog : 53 ≤ n.log2 := (Nat.le_log2 (Nat.ne_of_gt hpos)).2 h
  have hround : 2 ^ 52 ≤ Span.roundToEven n (2 ^ (n.log2 - 52)) := by
    refine Nat.le_trans ?_ (roundToEven_bounds n _).1
    rw [Nat.le_div_iff_mul_le (Nat.two_pow_pos _), ← Nat.pow_add, Nat.add_sub_cancel' (by omega)]
    exact (log2_bounds hpos).1
  have hunit : 2 ^ 1 ≤ 2 ^ (n.log2 - 52) := Nat.pow_le_pow_right (by decide) (by omega)
  exact Nat.mul_le_mul hround hunit

theorem nearest_near {n : Nat} (h : n < 2 ^ 64) :
    n ≤ nearest n + 2 ^ 10 ∧ nearest n ≤ n + 2 ^ 10 := by
  have hunit : 2 ^ (n.log2 - 52) ≤ 2 ^ 11 := by
    refine Nat.pow_le_pow_right (by decide) ?_
    rcases Nat.eq_zero_or_pos n with rfl | hpos
    · decide
    · have hlt := (Nat.log2_lt (Nat.ne_of_gt hpos)).2 h
      omega
  have hnear := roundToEven_near n (Nat.two_pow_pos (n.log2 - 52))
  rw [nearest]
  omega

def nearestInt : Int → Int
  | .ofNat n => nearest n
  | .negSucc n => -nearest (n + 1)

theorem nearestInt_of_lt {n : Int} (h : n.natAbs < 2 ^ 53) : nearestInt n = n := by
  cases n with
  | ofNat n => exact congrArg Int.ofNat (nearest_of_lt h)
  | negSucc n => exact congrArg (fun n : Nat => -(n : Int)) (nearest_of_lt h)

theorem natAbs_nearestInt (n : Int) : (nearestInt n).natAbs = nearest n.natAbs := by
  cases n with
  | ofNat n => rfl
  | negSucc n => exact Int.natAbs_neg _

theorem nearestInt_near {n : Int} (h : n.natAbs < 2 ^ 64) : (n - nearestInt n).natAbs ≤ 2 ^ 10 := by
  cases n with
  | ofNat n =>
    obtain ⟨hle, hge⟩ := nearest_near (n := n) h
    change ((n : Int) - nearest n).natAbs ≤ 2 ^ 10
    omega
  | negSucc n =>
    obtain ⟨hle, hge⟩ := nearest_near (n := n + 1) h
    change (Int.negSucc n - -(nearest (n + 1) : Int)).natAbs ≤ 2 ^ 10
    omega

/-- Numbers with the same nearest number are the same if one of them is small, and close to each
other in any case. -/
theorem nearestInt_eq_iff {a b : Int} (ha : a.natAbs < 2 ^ 64) (hb : b.natAbs < 2 ^ 64)
    (h : a.natAbs < 2 ^ 53 ∨ b.natAbs < 2 ^ 53 ∨ 2 ^ 11 < (a - b).natAbs) :
    nearestInt a = nearestInt b ↔ a = b := by
  have hsmall : ∀ {a b : Int}, a.natAbs < 2 ^ 53 → nearestInt a = nearestInt b → a = b := by
    intro a b ha heq
    have habs := natAbs_nearestInt b
    rw [nearestInt_of_lt ha] at heq
    rcases Nat.lt_or_ge b.natAbs (2 ^ 53) with hlt | hge
    · rwa [nearestInt_of_lt hlt] at heq
    · have hle := le_nearest hge
      rw [← habs, ← heq] at hle
      omega
  constructor
  · intro heq
    rcases h with hlt | hlt | hfar
    · exact hsmall hlt heq
    · exact (hsmall hlt heq.symm).symm
    · have hnear := nearestInt_near ha
      have hnear' := nearestInt_near hb
      rw [heq] at hnear
      omega
  · rintro rfl
    rfl

/-- The mantissa `n` without its last `shift` bits. They are not forgotten: the round bit is the
last of them, and the sticky bit tells whether any other was set. -/
structure Shifted (n shift : Nat) (em : ExtendedMantissa) : Prop where
  mantissa : em.mantissa = n / 2 ^ shift
  round : em.roundBit = true ↔ 2 ^ shift ≤ 2 * (n % 2 ^ shift)
  sticky : em.stickyBit = true ↔ 2 * (n % 2 ^ shift) ≠ 0 ∧ 2 * (n % 2 ^ shift) ≠ 2 ^ shift

theorem Shifted.one {n shift : Nat} {em : ExtendedMantissa} (h : Shifted n shift em) :
    Shifted n (shift + 1) em.shiftRightOne := by
  have hlow : n % 2 ^ shift < 2 ^ shift := Nat.mod_lt _ (Nat.two_pow_pos shift)
  have hbit := Nat.mod_two_eq_zero_or_one (n / 2 ^ shift)
  have hmod : n % 2 ^ (shift + 1) = n % 2 ^ shift + 2 ^ shift * (n / 2 ^ shift % 2) :=
    Nat.mod_pow_succ
  have hpow : 2 ^ (shift + 1) = 2 ^ shift * 2 := Nat.pow_succ 2 shift
  refine ⟨?_, ?_, ?_⟩
  · rw [ExtendedMantissa.shiftRightOne, h.mantissa, Nat.div_div_eq_div_mul, hpow]
  · rw [ExtendedMantissa.shiftRightOne, h.mantissa, bne_iff_ne, hmod, hpow]
    rcases hbit with hbit | hbit <;> rw [hbit] <;> omega
  · rw [ExtendedMantissa.shiftRightOne, Bool.or_eq_true, h.round, h.sticky, hmod, hpow]
    rcases hbit with hbit | hbit <;> rw [hbit] <;> omega

theorem shifted (n shift : Nat) :
    Shifted n shift (ExtendedMantissa.ofMantissaAndAccuracy n .exact >>> shift) := by
  induction shift with
  | zero =>
    have hnone : ExtendedMantissa.ofMantissaAndAccuracy n .exact >>> 0 = ⟨n, false, false⟩ := rfl
    rw [hnone]
    constructor <;> simp [Nat.mod_one]
  | succ shift ih => exact ih.one

theorem Shifted.rounded {n shift : Nat} {em : ExtendedMantissa} (h : Shifted n shift em) :
    em.roundedMantissa = Span.roundToEven n (2 ^ shift) := by
  have hlow : n % 2 ^ shift < 2 ^ shift := Nat.mod_lt _ (Nat.two_pow_pos shift)
  have hbit := Nat.mod_two_eq_zero_or_one (n / 2 ^ shift)
  obtain ⟨mantissa, round, sticky⟩ := em
  obtain ⟨hmantissa, hround, hsticky⟩ := h
  dsimp only at hround hsticky hmantissa
  subst hmantissa
  rw [Span.roundToEven]
  simp only [Bool.or_eq_true, Bool.and_eq_true, decide_eq_true_eq]
  cases round <;> cases sticky <;>
    simp only [ExtendedMantissa.roundedMantissa, ExtendedMantissa.accuracy,
      Accuracy.roundToNearestEven, Bool.false_eq_true, false_iff, true_iff] at hround hsticky ⊢ <;>
    split <;> omega

/-- A mantissa of `53 + k` bits loses `k` of them. -/
theorem shiftToTargetExponent_eq {n k : Nat} {e : Int} (hlow : 2 ^ (52 + k) ≤ n)
    (hhigh : n < 2 ^ (53 + k)) (he : -52 ≤ e + k) :
    shiftToTargetExponent Format.binary64 n e .exact =
      (ExtendedMantissa.ofMantissaAndAccuracy n .exact >>> k, e + k) := by
  have hlog : n.log2 = 52 + k :=
    (Nat.log2_eq_iff (Nat.ne_of_gt (Nat.lt_of_lt_of_le (Nat.two_pow_pos _) hlow))).2
      ⟨hlow, by rwa [Nat.add_right_comm]⟩
  have htarget : Format.binary64.targetExponent (totalExponent n e) = e + k := by
    have hmin : Format.binary64.minExponent = -1074 := by decide
    have hbits : Format.binary64.mantissaBits = 53 := rfl
    rw [Format.targetExponent, totalExponent, hlog, hmin, hbits]
    omega
  have hshift : (e + k - e).toNat = k := by omega
  rw [shiftToTargetExponent, htarget, shiftToExponent, hshift]

/-- The whole number that the parts of a double are. The bound is far from the one at which the
exponents of doubles end. -/
inductive Holds : UnpackedFloat → Int → Prop
  | zero (sign : Sign) : Holds (.zero sign) 0
  | finite {sign : Sign} {mantissa value shift : Nat} {e : Int} {hpos : 0 < mantissa}
      (hlow : 2 ^ 52 ≤ mantissa) (hhigh : mantissa < 2 ^ 53) (he : e = shift - 52)
      (hshift : shift ≤ 1000) (hscale : mantissa * 2 ^ shift = value * 2 ^ 52) :
      Holds (.finite sign mantissa e hpos) (sign.apply value)

/-- Rounding drops `k` bits, and one more where it carries to a power of two. -/
theorem holds_round (sign : Sign) {n value : Nat} {e : Int} (k shift : Nat)
    (hlow : 2 ^ (52 + k) ≤ n) (hhigh : n < 2 ^ (53 + k)) (he : e + k = shift - 52)
    (hshift : shift < 1000) (hscale : Span.roundToEven n (2 ^ k) * 2 ^ shift = value * 2 ^ 52) :
    Holds (roundWithAccuracy Format.binary64 sign n e .exact) (sign.apply value) := by
  have hbelow : 2 ^ 52 ≤ n / 2 ^ k := by
    rw [Nat.le_div_iff_mul_le (Nat.two_pow_pos k), ← Nat.pow_add]
    exact hlow
  have habove : n / 2 ^ k < 2 ^ 53 := by
    rw [Nat.div_lt_iff_lt_mul (Nat.two_pow_pos k), ← Nat.pow_add]
    exact hhigh
  obtain ⟨hge, hle⟩ := roundToEven_bounds n (2 ^ k)
  have hrounded := (shifted n k).rounded
  generalize Span.roundToEven n (2 ^ k) = r at hge hle hscale hrounded
  rw [roundWithAccuracy, shiftToTargetExponent_eq hlow hhigh (by omega)]
  dsimp only
  rw [hrounded]
  by_cases hr : r < 2 ^ 53
  · have hsecond : shiftToTargetExponent Format.binary64 r (e + k) .exact = _ :=
      shiftToTargetExponent_eq (k := 0) (by omega) (by omega) (by omega)
    have hmantissa := (shifted r 0).mantissa
    rw [Nat.pow_zero, Nat.div_one] at hmantissa
    rw [hsecond]
    dsimp only
    rw [dif_neg (by rw [hmantissa]; omega)]
    refine .finite (by omega) (by omega) ?_ (Nat.le_of_lt hshift) ?_
    · omega
    · rw [hmantissa, hscale]
  · obtain rfl : r = 2 ^ 53 := by omega
    have hsecond : shiftToTargetExponent Format.binary64 (2 ^ 53) (e + k) .exact = _ :=
      shiftToTargetExponent_eq (k := 1) (by decide) (by decide) (by omega)
    have hmantissa := (shifted (2 ^ 53) 1).mantissa
    rw [show 2 ^ 53 / 2 ^ 1 = 2 ^ 52 by decide] at hmantissa
    have hcarry : 2 ^ 52 * 2 ^ (shift + 1) = value * 2 ^ 52 := by
      rw [← hscale, Nat.pow_succ 2 shift]
      omega
    rw [hsecond]
    dsimp only
    rw [dif_neg (by rw [hmantissa]; decide)]
    refine .finite (by omega) (by omega) ?_ hshift (hmantissa ▸ hcarry)
    omega

/-- The leading bit of a mantissa is not stored. -/
theorem toNat_one_append {mantissa : Nat} (hlow : 2 ^ 52 ≤ mantissa) (hhigh : mantissa < 2 ^ 53) :
    (1#1 ++ BitVec.ofNat 52 mantissa).toNat = mantissa := by
  rw [BitVec.toNat_append, ← Nat.shiftLeft_add_eq_or_of_lt (BitVec.isLt _), Nat.shiftLeft_eq,
    BitVec.toNat_ofNat, BitVec.toNat_ofNat]
  omega

theorem unpackSign_pack (sign : Sign) (exponent : BitVec 11) (mantissa : BitVec 52) :
    Sign.ofBitVec (unpackSign (packComponents Format.binary64 sign exponent mantissa)) = sign := by
  change Sign.ofBitVec ((sign.toBitVec ++ exponent ++ mantissa).extractLsb' (52 + 11) 1) = sign
  rw [BitVec.extractLsb'_append_eq_of_le (Nat.le_add_right 52 11),
    BitVec.extractLsb'_append_eq_of_le (Nat.le_refl 11)]
  cases sign <;> rfl

theorem finite_congr {s t : Sign} {m m' : Nat} {e e' : Int} {hpos : 0 < m} {hpos' : 0 < m'}
    (hs : s = t) (hm : m = m') (he : e = e') :
    UnpackedFloat.finite s m e hpos = .finite t m' e' hpos' := by
  subst hs hm he
  rfl

theorem Holds.unpack_pack {u : UnpackedFloat} {value : Int} (h : Holds u value) :
    (Float.Model.pack u).unpack = u := by
  change unpack Format.binary64 (pack Format.binary64 u) = u
  cases h with
  | zero sign => cases sign <;> rfl
  | @finite sign mantissa value shift e hpos hlow hhigh he hshift hscale =>
    have hbias : Format.binary64.exponentBias = 1023 := by decide
    have hlog : mantissa.log2 + 1 = Format.binary64.mantissaBits := by
      rw [(Nat.log2_eq_iff (Nat.ne_of_gt hpos)).2 ⟨hlow, hhigh⟩]
      rfl
    have hbiased : (e + Format.binary64.exponentBias + (52 : Nat)).toNat = shift + 1023 := by
      rw [hbias]
      omega
    have hexponent : (BitVec.ofNat 11 (shift + 1023)).toNat = shift + 1023 :=
      Nat.mod_eq_of_lt (by omega)
    have hne : ∀ b : BitVec 11, b.toNat = 0 ∨ b.toNat = 2047 →
        BitVec.ofNat 11 (shift + 1023) ≠ b := by
      rintro _ hb rfl
      omega
    have hback : ((BitVec.ofNat 11 (shift + 1023)).toNat : Int) -
        (Format.binary64.exponentBias + (52 : Nat)) = e := by
      rw [hexponent, hbias]
      omega
    have hpack : pack Format.binary64 (.finite sign mantissa e hpos) =
        packComponents Format.binary64 sign (BitVec.ofNat 11 (shift + 1023))
          (BitVec.ofNat 52 mantissa) := by
      change (if 2048 ≤ (e + Format.binary64.exponentBias + (52 : Nat)).toNat + 1 then _
        else if mantissa.log2 + 1 = Format.binary64.mantissaBits then _ else _) = _
      rw [hbiased, if_neg (by omega), if_pos hlog]
    rw [hpack]
    change (if @unpackExponent Format.binary64 _ = -1#11 then _
      else if @unpackExponent Format.binary64 _ = 0#11 then _ else _) = _
    rw [unpackExponent_packComponents, if_neg (hne (-1#11) (.inr rfl)),
      if_neg (hne 0#11 (.inl rfl))]
    refine finite_congr (unpackSign_pack sign _ _) ?_ hback
    rw [unpackMantissa_packComponents, toNat_one_append hlow hhigh]

theorem holds_ofNat {n : Nat} (h : n < 2 ^ 53) :
    Holds (UnpackedFloat.ofNat Format.binary64 n) n := by
  rcases Nat.eq_zero_or_pos n with rfl | hpos
  · exact .zero .positive
  · obtain ⟨hlow, hhigh⟩ := log2_bounds hpos
    have hlog := (Nat.log2_lt (Nat.ne_of_gt hpos)).2 h
    have hround : UnpackedFloat.ofNat Format.binary64 n =
        UnpackedFloat.round Format.binary64 .positive n 0 := by
      have hcompare : compare (n : Int) 0 = .gt := by
        rw [Int.compare_eq_gt]
        omega
      rw [UnpackedFloat.ofNat, UnpackedFloat.ofInt, UnpackedFloat.normalize, hcompare]
      rfl
    have htarget : Format.binary64.targetExponent (totalExponent n 0) = n.log2 - 52 := by
      have hmin : Format.binary64.minExponent = -1074 := by decide
      have hbits : Format.binary64.mantissaBits = 53 := rfl
      rw [Format.targetExponent, totalExponent, hmin, hbits]
      omega
    have hshift : ((0 : Int) - (n.log2 - 52)).toNat = 52 - n.log2 := by omega
    have hpow : 2 ^ n.log2 * 2 ^ (52 - n.log2) = 2 ^ 52 := by
      rw [← Nat.pow_add, Nat.add_sub_cancel' (by omega)]
    rw [hround, UnpackedFloat.round, htarget, decreaseExponent, hshift]
    dsimp only
    rw [Nat.shiftLeft_eq]
    -- the mantissa is filled up with zeros, and no bit of it is dropped
    refine holds_round .positive 0 n.log2 ?_ ?_ ?_ (by omega) ?_
    · calc
        2 ^ 52 = 2 ^ n.log2 * 2 ^ (52 - n.log2) := hpow.symm
        _ ≤ n * 2 ^ (52 - n.log2) := Nat.mul_le_mul_right _ hlow
    · calc
        n * 2 ^ (52 - n.log2) < 2 ^ (n.log2 + 1) * 2 ^ (52 - n.log2) :=
          Nat.mul_lt_mul_of_pos_right hhigh (Nat.two_pow_pos _)
        _ = 2 ^ 53 := by rw [← Nat.pow_add, show n.log2 + 1 + (52 - n.log2) = 53 by omega]
    · omega
    · rw [Nat.pow_zero, roundToEven_one, Nat.mul_assoc, Nat.mul_comm (2 ^ _), hpow]

theorem finite_mul_finite {format : Format} {s t : Sign} {m m' : Nat} {e e' : Int} {hpos : 0 < m}
    {hpos' : 0 < m'} :
    (UnpackedFloat.finite s m e hpos).mul format (.finite t m' e' hpos') =
      roundWithAccuracy format (s * t) (m * m') (e + e') .exact :=
  rfl

def one : UnpackedFloat :=
  .finite .positive (2 ^ 52) (-52) (Nat.two_pow_pos 52)

theorem Holds.mul_one {u : UnpackedFloat} {value : Int} (h : Holds u value)
    (hvalue : value.natAbs < 2 ^ 53) : Holds (u.mul Format.binary64 one) value := by
  cases h with
  | zero sign => exact .zero _
  | @finite sign mantissa value shift e hpos hlow hhigh he hshift hscale =>
    have hsign : sign * Sign.positive = sign := by cases sign <;> rfl
    have habs : value < 2 ^ 53 := by
      cases sign <;> simpa [Sign.apply] using hvalue
    have hsmall : shift < 53 := by
      have hle : 2 ^ 52 * 2 ^ shift ≤ 2 ^ 52 * value := by
        rw [Nat.mul_comm _ value, ← hscale]
        exact Nat.mul_le_mul_right _ hlow
      have hlt : 2 ^ shift < 2 ^ 53 :=
        Nat.lt_of_le_of_lt (Nat.le_of_mul_le_mul_left hle (Nat.two_pow_pos 52)) habs
      exact (Nat.pow_lt_pow_iff_right (by decide)).1 hlt
    have hround : Span.roundToEven (mantissa * 2 ^ 52) (2 ^ 52) = mantissa := by
      have hunit := roundToEven_mul_right mantissa 1 (Nat.two_pow_pos 52)
      rwa [Nat.one_mul, roundToEven_one] at hunit
    rw [one, finite_mul_finite, hsign]
    exact holds_round sign 52 shift (by omega) (by omega) (by omega) (by omega)
      (by rw [hround, hscale])

theorem holds_ofScientific {n : Nat} (hlow : 2 ^ 53 ≤ n) (hhigh : n < 2 ^ 64) :
    Holds (UnpackedFloat.ofScientific Format.binary64 n 0) (nearest n) := by
  have hpos : 0 < n := by omega
  obtain ⟨hbelow, habove⟩ := log2_bounds hpos
  have hlog : n.log2 < 64 := (Nat.log2_lt (Nat.ne_of_gt hpos)).2 hhigh
  have hlog' : 53 ≤ n.log2 := (Nat.le_log2 (Nat.ne_of_gt hpos)).2 hlow
  have hbits : Format.binary64.mantissaBits = 53 := rfl
  have hrange : Format.binary64.exponentBits = 11 := rfl
  have hmantissa : n <<< Format.binary64.mantissaBits * 10 ^ (0 : Int).toNat = n * 2 ^ 53 := by
    rw [Nat.shiftLeft_eq, hbits, Int.toNat_zero, Nat.pow_zero, Nat.mul_one]
  have hpow : 2 ^ (n.log2 + 1) = 2 ^ (n.log2 - 52) * 2 ^ 53 := by
    rw [← Nat.pow_add, show n.log2 - 52 + 53 = n.log2 + 1 by omega]
  rw [UnpackedFloat.ofScientific, dif_neg (Nat.ne_of_gt hpos), hrange, if_neg (by decide),
    if_neg (by omega), if_pos (by decide), finite_mul_finite, hmantissa, hbits]
  refine holds_round .positive (n.log2 + 1) n.log2 ?_ ?_ ?_ (by omega) ?_
  · rw [show 52 + (n.log2 + 1) = n.log2 + 53 by omega, Nat.pow_add]
    exact Nat.mul_le_mul_right _ hbelow
  · rw [Nat.add_comm, Nat.pow_add]
    exact Nat.mul_lt_mul_of_pos_right habove (Nat.two_pow_pos 53)
  · omega
  · rw [hpow, roundToEven_mul_right _ _ (Nat.two_pow_pos 53), nearest, Nat.mul_assoc, ← Nat.pow_add,
      Nat.sub_add_cancel (by omega)]

theorem holds_float_ofNat {n : Nat} (h : n < 2 ^ 64) :
    Holds (Float.ofNat n).toModel.unpack (nearest n) := by
  have hdecimal : Float.ofNat n = Float.ofScientific n false 0 := rfl
  rw [hdecimal, Float.ofScientific]
  -- a small number is converted by itself and multiplied by the power of ten, which is one here
  by_cases hsmall : n < 2 ^ 53
  · have hnat := holds_ofNat hsmall
    have hword : n.toUInt64.toNat = n := Nat.mod_eq_of_lt h
    have hconverted : n.toUInt64.toFloat.toModel.unpack =
        UnpackedFloat.ofNat Format.binary64 n := by
      have hmodel : n.toUInt64.toFloat.toModel =
          Float.Model.pack (UnpackedFloat.ofNat Format.binary64 n.toUInt64.toNat) := rfl
      rw [hmodel, hword, hnat.unpack_pack]
    have hproduct : ∀ x : Float, (x * Float.exactlyRepresentablePowersOfTen[0]).toModel =
        Float.Model.pack (x.toModel.unpack.mul Format.binary64 one) := fun x => rfl
    have hone := hnat.mul_one (by omega)
    rw [dif_pos ⟨hsmall, by decide⟩, if_neg Bool.false_ne_true, nearest_of_lt hsmall, hproduct,
      hconverted, hone.unpack_pack]
    exact hone
  · have hscientific := holds_ofScientific (Nat.le_of_not_lt hsmall) h
    rw [dif_neg fun hboth => hsmall hboth.1]
    change Holds (Float.Model.pack (UnpackedFloat.ofScientific Format.binary64 n 0)).unpack _
    rw [hscientific.unpack_pack]
    exact hscientific

theorem Holds.neg {u : UnpackedFloat} {value : Int} (h : Holds u value) : Holds u.neg (-value) := by
  cases h with
  | zero sign => exact .zero _
  | @finite sign m value shift e hpos hlow hhigh he hshift hscale =>
    have hsign : -sign.apply value = (-sign).apply value := by
      cases sign
      · exact Int.neg_neg _
      · rfl
    rw [hsign]
    exact .finite hlow hhigh he hshift hscale

theorem holds_float_ofInt {n : Int} (h : n.natAbs < 2 ^ 64) :
    Holds (Float.ofInt n).toModel.unpack (nearestInt n) := by
  cases n with
  | ofNat n => exact holds_float_ofNat h
  | negSucc n =>
    have hneg : Holds (Float.ofNat (n + 1)).toModel.unpack.neg (-nearest (n + 1)) :=
      (holds_float_ofNat h).neg
    have hmodel : (Float.ofInt (.negSucc n)).toModel =
        Float.Model.pack (Float.ofNat (n + 1)).toModel.unpack.neg := rfl
    rw [hmodel, hneg.unpack_pack]
    exact hneg

theorem value_pos {mantissa shift value : Nat} (hlow : 2 ^ 52 ≤ mantissa)
    (hscale : mantissa * 2 ^ shift = value * 2 ^ 52) : 0 < value := by
  have hproduct : 0 < mantissa * 2 ^ shift :=
    Nat.mul_pos (Nat.lt_of_lt_of_le (Nat.two_pow_pos 52) hlow) (Nat.two_pow_pos shift)
  omega

theorem log2_mul_two_pow {mantissa : Nat} (hlow : 2 ^ 52 ≤ mantissa) (hhigh : mantissa < 2 ^ 53)
    (shift : Nat) : (mantissa * 2 ^ shift).log2 = 52 + shift := by
  have hpos : 0 < mantissa * 2 ^ shift := Nat.mul_pos (by omega) (Nat.two_pow_pos shift)
  refine (Nat.log2_eq_iff (Nat.ne_of_gt hpos)).2 ⟨?_, ?_⟩
  · rw [Nat.pow_add]
    exact Nat.mul_le_mul_right _ hlow
  · rw [Nat.add_right_comm, Nat.pow_add]
    exact Nat.mul_lt_mul_of_pos_right hhigh (Nat.two_pow_pos shift)

/-- The parts of a double are those of one whole number only. -/
theorem parts_eq_iff {m m' shift shift' value value' : Nat} (hlow : 2 ^ 52 ≤ m) (hhigh : m < 2 ^ 53)
    (hlow' : 2 ^ 52 ≤ m') (hhigh' : m' < 2 ^ 53) (hscale : m * 2 ^ shift = value * 2 ^ 52)
    (hscale' : m' * 2 ^ shift' = value' * 2 ^ 52) : (shift = shift' ∧ m = m') ↔ value = value' := by
  constructor
  · rintro ⟨rfl, rfl⟩
    exact Nat.eq_of_mul_eq_mul_right (Nat.two_pow_pos 52) (hscale.symm.trans hscale')
  · rintro rfl
    have hproduct := hscale.trans hscale'.symm
    have hlog := congrArg Nat.log2 hproduct
    rw [log2_mul_two_pow hlow hhigh, log2_mul_two_pow hlow' hhigh'] at hlog
    obtain rfl : shift = shift' := Nat.add_left_cancel hlog
    exact ⟨rfl, Nat.eq_of_mul_eq_mul_right (Nat.two_pow_pos shift) hproduct⟩

theorem Holds.unique {u : UnpackedFloat} {x y : Int} (hx : Holds u x) (hy : Holds u y) : x = y := by
  cases hx with
  | zero sign =>
    cases hy with
    | zero => rfl
  | @finite sign m value shift e hpos hlow hhigh he hshift hscale =>
    cases hy with
    | @finite _ _ value' shift' _ _ _ _ he' _ hscale' =>
      have hvalue := (parts_eq_iff hlow hhigh hlow hhigh hscale hscale').1 ⟨by omega, rfl⟩
      rw [hvalue]

/-- Only zero has two doubles. -/
theorem Holds.eq_or_zero {u w : UnpackedFloat} {x y : Int} (hu : Holds u x) (hw : Holds w y)
    (h : x = y) : u = w ∨ ∃ s t, u = .zero s ∧ w = .zero t := by
  have hne : ∀ (sign : Sign) {value : Nat}, 0 < value → sign.apply value ≠ 0 := by
    intro sign value hpos
    cases sign <;> simp only [Sign.apply] <;> omega
  cases hu with
  | zero s =>
    cases hw with
    | zero t => exact .inr ⟨s, t, rfl, rfl⟩
    | finite hlow _ _ _ hscale => exact absurd h.symm (hne _ (value_pos hlow hscale))
  | @finite s m value shift e _ hlow hhigh he _ hscale =>
    cases hw with
    | zero t => exact absurd h (hne _ (value_pos hlow hscale))
    | @finite t m' value' shift' e' _ hlow' hhigh' he' _ hscale' =>
      have hpos := value_pos hlow hscale
      have hpos' := value_pos hlow' hscale'
      obtain ⟨rfl, hvalue⟩ : s = t ∧ value = value' := by
        cases s <;> cases t <;> simp only [Sign.apply, reduceCtorEq, true_and, false_and] at h ⊢ <;>
          omega
      obtain ⟨rfl, rfl⟩ := (parts_eq_iff hlow hhigh hlow' hhigh' hscale hscale').2 hvalue
      obtain rfl : e = e' := he.trans he'.symm
      exact .inl rfl

theorem finite_beq_finite {s t : Sign} {m m' : Nat} {e e' : Int} {hpos : 0 < m} {hpos' : 0 < m'} :
    (UnpackedFloat.finite s m e hpos).beq (.finite t m' e' hpos') = true ↔
      s = t ∧ e = e' ∧ m = m' := by
  have hthen : (compare e e').then (compare m m') = .eq ↔ e = e' ∧ m = m' := by
    rw [Ordering.then_eq_eq, Std.compare_eq_iff_eq, Std.compare_eq_iff_eq]
  change (UnpackedFloat.compare _ _ == some .eq) = true ↔ _
  rw [beq_iff_eq]
  cases s with
  | positive =>
    cases t with
    | positive =>
      change some ((compare e e').then (compare m m')) = some .eq ↔ _
      rw [Option.some_inj, hthen, and_iff_right rfl]
    | negative => exact iff_of_false nofun nofun
  | negative =>
    cases t with
    | positive => exact iff_of_false nofun nofun
    | negative =>
      change some ((compare e e').then (compare m m')).swap = some .eq ↔ _
      rw [Option.some_inj, Ordering.swap_eq_eq, hthen, and_iff_right rfl]

theorem Holds.beq_iff_eq_or_zero {u w : UnpackedFloat} {x y : Int} (hu : Holds u x)
    (hw : Holds w y) : u.beq w = true ↔ u = w ∨ ∃ s t, u = .zero s ∧ w = .zero t := by
  cases hu with
  | zero s =>
    cases hw with
    | zero t => exact iff_of_true rfl (.inr ⟨s, t, rfl, rfl⟩)
    | @finite t => exact iff_of_false (by cases t <;> nofun) nofun
  | @finite s m value shift e hpos =>
    cases hw with
    | zero t => exact iff_of_false (by cases s <;> nofun) nofun
    | @finite t m' value' shift' e' hpos' =>
      rw [finite_beq_finite]
      constructor
      · rintro ⟨rfl, rfl, rfl⟩
        exact .inl rfl
      · rintro (heq | ⟨_, _, heq, -⟩)
        · obtain ⟨rfl, rfl, rfl⟩ := UnpackedFloat.finite.inj heq
          exact ⟨rfl, rfl, rfl⟩
        · cases heq

theorem Holds.beq_iff {u w : UnpackedFloat} {x y : Int} (hu : Holds u x) (hw : Holds w y) :
    u.beq w = true ↔ x = y := by
  rw [hu.beq_iff_eq_or_zero hw]
  constructor
  · rintro (rfl | ⟨s, t, rfl, rfl⟩)
    · exact hu.unique hw
    · cases hu
      cases hw
      rfl
  · exact hu.eq_or_zero hw

/-- The doubles of two whole numbers are equal when their nearest numbers are. -/
theorem ofInt_beq_iff {a b : Int} (ha : a.natAbs < 2 ^ 64) (hb : b.natAbs < 2 ^ 64) :
    (Float.ofInt a == Float.ofInt b) = true ↔ nearestInt a = nearestInt b :=
  (holds_float_ofInt ha).beq_iff (holds_float_ofInt hb)

end Workflow.Decimal
