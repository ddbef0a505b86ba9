import Mathlib
import StraightLine.Pass.Strength

/-!
# Laws of doubles

The laws of arithmetic that the passes use, proved of the model of `Float`, in which there is one
value that is not a number, so that equality is equality up to its bits.

A double is unpacked to a sign, a mantissa and an exponent (`value`), and packed again (`ofValue`).
Sums and differences need no more than that. A product or a quotient is rounded, and the rounding of
a number does not depend on how it is written (`roundWithAccuracy_cut`,
`roundWithAccuracy_scale`): that gives `x * 1 = x`, and `x / c = x * (1 / c)` where `c` is a power
of two with a normal reciprocal (`div_eq_mul_of_exactReciprocal`).

A numeral that stands for a number is fixed by its value (`Numeral.value_inj`).
-/

namespace StraightLine.Double

open Float.Model Float.Model.UnpackedFloat

/-! ### Rounding -/

/-- The exponent that a mantissa at an exponent is rounded to. -/
def target (m : Nat) (e : Int) : Int := max (m.log2 + 1 + e - 53) (-1074)

theorem targetExponent_max (t : Int) :
    Format.binary64.targetExponent t = max (t - 53) (-1074) := rfl

theorem shiftRight_shiftRight (em : ExtendedMantissa) (a b : Nat) :
    em >>> a >>> b = em >>> (a + b) := by
  induction b with
  | zero => rfl
  | succ b ih =>
    show ExtendedMantissa.shiftRightOne (em >>> a >>> b) =
      ExtendedMantissa.shiftRightOne (em >>> (a + b))
    rw [ih]

/-- A mantissa that is not exact has no exact half. -/
theorem shiftRightOne_inexact (m : Nat) (o : Ordering) :
    (ExtendedMantissa.ofMantissaAndAccuracy m (.inexact o)).shiftRightOne =
      ⟨m / 2, m % 2 != 0, true⟩ := by
  cases o <;> rfl

/-- The number with a mantissa and an exponent. -/
def ofShifted (s : Sign) (r : ExtendedMantissa × Int) : UnpackedFloat :=
  if h : r.1.mantissa = 0 then .zero s else .finite s r.1.mantissa r.2 (Nat.pos_of_ne_zero h)

/-- The second half of rounding: the mantissa is rounded and, if that made it too long, shifted once
more. -/
def finish (s : Sign) (em : ExtendedMantissa) (e : Int) : UnpackedFloat :=
  ofShifted s (shiftToTargetExponent .binary64 em.roundedMantissa e .exact)

/-- Bits that are cut off are kept as an accuracy, as if they were shifted out one by one. -/
theorem ofMantissaAndAccuracy_div (n k : Nat) :
    ExtendedMantissa.ofMantissaAndAccuracy (n / 2 ^ k) (accuracyOfFraction (n % 2 ^ k) (2 ^ k)) =
      ExtendedMantissa.ofMantissaAndAccuracy n .exact >>> k := by
  induction k with
  | zero => simp [accuracyOfFraction, Nat.mod_one]; rfl
  | succ k ih =>
    have hstep : ExtendedMantissa.ofMantissaAndAccuracy n .exact >>> (k + 1) =
        (ExtendedMantissa.ofMantissaAndAccuracy n .exact >>> k).shiftRightOne := rfl
    rw [hstep, ← ih]
    have hpos : 0 < 2 ^ k := Nat.two_pow_pos k
    have hlt : n % 2 ^ k < 2 ^ k := Nat.mod_lt _ hpos
    have hdiv : n / 2 ^ (k + 1) = n / 2 ^ k / 2 := by rw [Nat.pow_succ, Nat.div_div_eq_div_mul]
    have hmod : n % 2 ^ (k + 1) = n % 2 ^ k + 2 ^ k * (n / 2 ^ k % 2) := by
      rw [Nat.pow_succ, Nat.mod_mul]
    have hbit : n / 2 ^ k % 2 = 0 ∨ n / 2 ^ k % 2 = 1 := by omega
    rw [hdiv, hmod, Nat.pow_succ]
    generalize n / 2 ^ k = q at *
    generalize n % 2 ^ k = r at *
    generalize 2 ^ k = p at *
    unfold accuracyOfFraction
    rcases hbit with hq | hq <;> rw [hq] <;> by_cases hr : r = 0
    · simp [hr, ExtendedMantissa.ofMantissaAndAccuracy, ExtendedMantissa.shiftRightOne, hq]
    · have hlo : compare (2 * r) (p * 2) = .lt := Nat.compare_eq_lt.mpr (by omega)
      rw [if_neg (by omega), if_neg hr, Nat.mul_zero, Nat.add_zero, hlo, shiftRightOne_inexact, hq]
      rfl
    · have hmid : compare (2 * p) (p * 2) = .eq := Nat.compare_eq_eq.mpr (by omega)
      rw [hr, if_neg (by omega), if_pos rfl, Nat.zero_add, Nat.mul_one, hmid]
      simp [ExtendedMantissa.ofMantissaAndAccuracy, ExtendedMantissa.shiftRightOne, hq]
    · have hhi : compare (2 * (r + p)) (p * 2) = .gt := Nat.compare_eq_gt.mpr (by omega)
      rw [if_neg (by omega), if_neg hr, Nat.mul_one, hhi, shiftRightOne_inexact, hq]
      rfl

/-- Rounding, as a shift to the target and the rest. -/
theorem roundWithAccuracy_eq (s : Sign) (m : Nat) (e : Int) (a : Accuracy) :
    roundWithAccuracy .binary64 s m e a =
      finish s (ExtendedMantissa.ofMantissaAndAccuracy m a >>> (target m e - e).toNat)
        (e + (target m e - e).toNat) := rfl

theorem log2_mul_two_pow {n : Nat} (hn : n ≠ 0) (j : Nat) : (n * 2 ^ j).log2 = n.log2 + j := by
  induction j with
  | zero => simp
  | succ j ih =>
    have hne : n * 2 ^ j ≠ 0 := Nat.mul_ne_zero hn (Nat.ne_of_gt (Nat.two_pow_pos j))
    have hdouble : n * 2 ^ (j + 1) = 2 * (n * 2 ^ j) := by rw [Nat.pow_succ]; ac_rfl
    rw [hdouble, Nat.log2_two_mul hne, ih]
    rfl

theorem log2_div_two_pow {n k : Nat} (h : 2 ^ k ≤ n) : (n / 2 ^ k).log2 = n.log2 - k := by
  have hn : n ≠ 0 := Nat.ne_of_gt (Nat.lt_of_lt_of_le (Nat.two_pow_pos k) h)
  have hk : k ≤ n.log2 := (Nat.le_log2 hn).mpr h
  obtain ⟨hlo, hhi⟩ := (Nat.log2_eq_iff hn).mp rfl
  have hpow : 2 ^ n.log2 = 2 ^ (n.log2 - k) * 2 ^ k := by rw [← Nat.pow_add, Nat.sub_add_cancel hk]
  have hpos : n / 2 ^ k ≠ 0 := Nat.ne_of_gt (Nat.div_pos h (Nat.two_pow_pos k))
  refine (Nat.log2_eq_iff hpos).mpr ⟨?_, ?_⟩
  · rw [Nat.le_div_iff_mul_le (Nat.two_pow_pos k), ← hpow]
    exact hlo
  · rw [Nat.div_lt_iff_lt_mul (Nat.two_pow_pos k), Nat.pow_succ, Nat.mul_right_comm, ← hpow,
      ← Nat.pow_succ]
    exact hhi

/-- Cutting off bits that rounding would shift out does not change where it rounds to. -/
theorem target_cut {n : Nat} (hn : n ≠ 0) (k : Nat) (f : Int) (hle : f + k ≤ target n f) :
    target (n / 2 ^ k) (f + k) = target n f := by
  unfold target at hle ⊢
  by_cases hlong : 2 ^ k ≤ n
  · have hlog : k ≤ n.log2 := (Nat.le_log2 hn).mpr hlong
    rw [log2_div_two_pow hlong]
    omega
  · have hlog : n.log2 < k := (Nat.log2_lt hn).mpr (Nat.lt_of_not_le hlong)
    rw [Nat.div_eq_of_lt (Nat.lt_of_not_le hlong), Nat.log2_zero]
    omega

/-- Rounding a number whose last bits were cut off before is rounding the number itself. -/
theorem roundWithAccuracy_cut (s : Sign) {n : Nat} (hn : n ≠ 0) (k : Nat) (f : Int)
    (hle : f + k ≤ target n f) :
    roundWithAccuracy .binary64 s (n / 2 ^ k) (f + k) (accuracyOfFraction (n % 2 ^ k) (2 ^ k)) =
      roundWithAccuracy .binary64 s n f .exact := by
  have hshift : k + (target n f - (f + k)).toNat = (target n f - f).toNat := by omega
  have hexp : f + k + ((target n f - (f + k)).toNat : Int) = f + ((target n f - f).toNat : Int) :=
    by omega
  rw [roundWithAccuracy_eq, roundWithAccuracy_eq, ofMantissaAndAccuracy_div, shiftRight_shiftRight,
    target_cut hn k f hle, hshift, hexp]

/-- The same number written with a longer mantissa is rounded to the same double. -/
theorem roundWithAccuracy_scale (s : Sign) {n : Nat} (hn : n ≠ 0) (j : Nat) (f : Int)
    (hle : f ≤ target n f) :
    roundWithAccuracy .binary64 s (n * 2 ^ j) (f - j) .exact =
      roundWithAccuracy .binary64 s n f .exact := by
  have hpos : 0 < 2 ^ j := Nat.two_pow_pos j
  have ht : target (n * 2 ^ j) (f - j) = target n f := by
    unfold target
    rw [log2_mul_two_pow hn]
    push_cast
    congr 1
    omega
  have hcut := roundWithAccuracy_cut s (Nat.mul_ne_zero hn (Nat.ne_of_gt hpos)) j (f - j)
  rw [Nat.mul_div_cancel _ hpos, Nat.mul_mod_left, Int.sub_add_cancel, ht] at hcut
  exact (hcut hle).symm

/-- A double as it is unpacked: its mantissa fills 53 bits or its exponent is the least. -/
def Canonical : UnpackedFloat → Prop
  | .finite _ m e _ => m < 2 ^ 53 ∧ -1074 ≤ e ∧ e ≤ 971 ∧ (2 ^ 52 ≤ m ∨ e = -1074)
  | _ => True

/-- What is unpacked is at its target already. -/
theorem Canonical.target_eq {s : Sign} {m : Nat} {e : Int} {hm : 0 < m}
    (h : Canonical (.finite s m e hm)) : target m e = e := by
  obtain ⟨hlt, hlo, -, hcase⟩ := h
  have hlog : m.log2 < 53 := (Nat.log2_lt (Nat.ne_of_gt hm)).mpr hlt
  unfold target
  rcases hcase with hn | he
  · have := (Nat.le_log2 (Nat.ne_of_gt hm)).mpr hn
    omega
  · omega

/-- A double is rounded to itself. -/
theorem roundWithAccuracy_canonical {s : Sign} {m : Nat} {e : Int} {hm : 0 < m}
    (h : Canonical (.finite s m e hm)) :
    roundWithAccuracy .binary64 s m e .exact = .finite s m e hm := by
  have ht := h.target_eq
  have hshift : shiftToTargetExponent .binary64 m e .exact = (⟨m, false, false⟩, e) := by
    have hz : (target m e - e).toNat = 0 := by omega
    show (ExtendedMantissa.ofMantissaAndAccuracy m .exact >>> (target m e - e).toNat,
      e + ((target m e - e).toNat : Int)) = _
    rw [hz]
    exact Prod.ext rfl (Int.add_zero e)
  have hround : (⟨m, false, false⟩ : ExtendedMantissa).roundedMantissa = m := rfl
  show ofShifted s (shiftToTargetExponent .binary64
    (shiftToTargetExponent .binary64 m e .exact).1.roundedMantissa
    (shiftToTargetExponent .binary64 m e .exact).2 .exact) = _
  rw [hshift, hround, hshift]
  exact dif_neg (Nat.ne_of_gt hm)

/-! ### Packing -/

theorem toNat_packComponents (s : Sign) (ev : BitVec 11) (mv : BitVec 52) :
    (packComponents .binary64 s ev mv).toNat =
      s.toBitVec.toNat * 2 ^ 63 + ev.toNat * 2 ^ 52 + mv.toNat := by
  show (s.toBitVec ++ ev ++ mv : BitVec (1 + 11 + 52)).toNat = _
  rw [BitVec.toNat_append, BitVec.toNat_append, ← Nat.shiftLeft_add_eq_or_of_lt mv.isLt,
    ← Nat.shiftLeft_add_eq_or_of_lt ev.isLt]
  simp only [Nat.shiftLeft_eq]
  omega

theorem toNat_unpackSign (b : BitVec 64) : (@unpackSign .binary64 b).toNat = b.toNat / 2 ^ 63 := by
  have := b.isLt
  simp [unpackSign, BitVec.extractLsb, BitVec.extractLsb', Nat.shiftRight_eq_div_pow]
  omega

theorem toNat_unpackExponent (b : BitVec 64) :
    (@unpackExponent .binary64 b).toNat = b.toNat / 2 ^ 52 % 2 ^ 11 := by
  simp [unpackExponent, BitVec.extractLsb, BitVec.extractLsb', Nat.shiftRight_eq_div_pow]

theorem toNat_unpackMantissa (b : BitVec 64) :
    (@unpackMantissa .binary64 b).toNat = b.toNat % 2 ^ 52 := by
  simp [unpackMantissa, BitVec.extractLsb, BitVec.extractLsb']

theorem toBitVec_ofBitVec (v : BitVec 1) : (Sign.ofBitVec v).toBitVec = v := by
  decide +revert

theorem ofBitVec_toBitVec (s : Sign) : Sign.ofBitVec s.toBitVec = s := by
  cases s <;> rfl

theorem unpackSign_packComponents (s : Sign) (ev : BitVec 11) (mv : BitVec 52) :
    @unpackSign .binary64 (packComponents .binary64 s ev mv) = s.toBitVec := by
  have h₁ := s.toBitVec.isLt
  have h₂ := ev.isLt
  have h₃ := mv.isLt
  apply BitVec.eq_of_toNat_eq
  rw [toNat_unpackSign, toNat_packComponents]
  omega

/-- A word is put together from its sign, its exponent and its mantissa. -/
theorem exists_packComponents (b : BitVec 64) :
    ∃ (s : Sign) (ev : BitVec 11) (mv : BitVec 52), b = packComponents .binary64 s ev mv := by
  refine ⟨.ofBitVec (@unpackSign .binary64 b), @unpackExponent .binary64 b,
    @unpackMantissa .binary64 b, ?_⟩
  have := b.isLt
  apply BitVec.eq_of_toNat_eq
  rw [toNat_packComponents, toBitVec_ofBitVec, toNat_unpackSign, toNat_unpackExponent,
    toNat_unpackMantissa]
  omega

/-- The mantissa of a normal double has a first bit that is not written. -/
theorem toNat_implicit_append (mv : BitVec 52) : (1#1 ++ mv).toNat = 2 ^ 52 + mv.toNat := by
  have hor := Nat.two_pow_add_eq_or_of_lt mv.isLt 1
  rw [Nat.mul_one] at hor
  rw [BitVec.toNat_append, hor]
  rfl

/-- What the parts of a word stand for. -/
theorem unpack_packComponents (s : Sign) (ev : BitVec 11) (mv : BitVec 52) :
    unpack .binary64 (packComponents .binary64 s ev mv) =
      if ev = -1#11 then if mv = 0#52 then .infinity s else .notANumber
      else if ev = 0#11 then
        if h : mv = 0#52 then .zero s
        else .finite s mv.toNat (-1074)
          (by simpa [BitVec.toNat_pos, BitVec.pos_iff_ne_zero] using h)
      else .finite s (2 ^ 52 + mv.toNat) (ev.toNat - 1075) (by omega) := by
  have hbias : ((Format.binary64.exponentBias : Int) +
      (Format.binary64.mantissaBitsWithoutImplicit : Int)) = 1075 := rfl
  unfold UnpackedFloat.unpack
  simp only [unpackMantissa_packComponents, unpackExponent_packComponents,
    unpackSign_packComponents, ofBitVec_toBitVec, toNat_implicit_append, hbias]
  split
  · rfl
  · split
    · rename_i h0
      subst h0
      rfl
    · rfl

/-- Unpacking gives only canonical numbers. -/
theorem canonical_unpack (b : BitVec 64) : Canonical (unpack .binary64 b) := by
  obtain ⟨s, ev, mv, rfl⟩ := exists_packComponents b
  have hev := ev.isLt
  have hmv := mv.isLt
  rw [unpack_packComponents]
  split
  · split <;> trivial
  · rename_i hinf
    have hne : ev.toNat ≠ 2 ^ 11 - 1 := fun h => hinf (BitVec.eq_of_toNat_eq h)
    split
    · split
      · trivial
      · exact ⟨by omega, by omega, by omega, Or.inr rfl⟩
    · rename_i hzero
      have hpos : ev.toNat ≠ 0 := fun h => hzero (BitVec.eq_of_toNat_eq h)
      exact ⟨by omega, by omega, by omega, Or.inl (by omega)⟩

/-- How a double with a long mantissa is packed. -/
theorem pack_normal (s : Sign) {m : Nat} {e : Int} (hm : 0 < m) (hlo : 2 ^ 52 ≤ m)
    (hhi : m < 2 ^ 53) (helo : -1074 ≤ e) (hehi : e ≤ 971) :
    pack .binary64 (.finite s m e hm) =
      packComponents .binary64 s (BitVec.ofNat 11 (e + 1075).toNat) (BitVec.ofNat 52 m) := by
  have hlog : m.log2 = 52 := (Nat.log2_eq_iff (Nat.ne_of_gt hm)).mpr ⟨hlo, hhi⟩
  have hexp :
      (e + Format.binary64.exponentBias + Format.binary64.mantissaBitsWithoutImplicit).toNat =
      (e + 1075).toNat := by
    show (e + 1023 + 52).toNat = _
    omega
  unfold UnpackedFloat.pack
  simp only [hlog, hexp]
  rw [if_neg (by omega), if_pos (by decide)]

/-- How a double with a short mantissa is packed. -/
theorem pack_subnormal (s : Sign) {m : Nat} (hm : 0 < m) (hhi : m < 2 ^ 52) :
    pack .binary64 (.finite s m (-1074) hm) =
      packComponents .binary64 s 0#11 (BitVec.ofNat 52 m) := by
  have hlog : m.log2 < 52 := (Nat.log2_lt (Nat.ne_of_gt hm)).mpr hhi
  have hbits : Format.binary64.mantissaBits = 53 := rfl
  unfold UnpackedFloat.pack
  simp only [hbits]
  rw [if_neg (by decide), if_neg (by omega)]

/-- A word without a payload in its NaN is packed as it was. -/
theorem pack_unpack {b : BitVec 64} (hv : Format.binary64.Valid b) :
    pack .binary64 (unpack .binary64 b) = b := by
  obtain ⟨s, ev, mv, rfl⟩ := exists_packComponents b
  have hmv := mv.isLt
  have hnan := hv.eq_packedNaN
  rw [unpackExponent_packComponents, unpackMantissa_packComponents] at hnan
  rw [unpack_packComponents]
  split
  · rename_i hinf
    split
    · rename_i hm
      subst hinf hm
      rfl
    · rename_i hm
      exact (hnan hinf hm).symm
  · rename_i hinf
    have hne : ev.toNat ≠ 2 ^ 11 - 1 := fun h => hinf (BitVec.eq_of_toNat_eq h)
    have hev := ev.isLt
    split
    · rename_i hzero
      subst hzero
      split
      · rename_i hm
        subst hm
        rfl
      · rw [pack_subnormal s _ hmv, BitVec.ofNat_toNat, BitVec.setWidth_eq]
    · rename_i hzero
      have hpos : ev.toNat ≠ 0 := fun h => hzero (BitVec.eq_of_toNat_eq h)
      have hexp : ((ev.toNat : Int) - 1075 + 1075).toNat = ev.toNat := by omega
      rw [pack_normal s _ (by omega) (by omega) (by omega) (by omega), hexp]
      congr 1
      · exact BitVec.eq_of_toNat_eq (by simp)
      · exact BitVec.eq_of_toNat_eq (by simp; omega)

/-- A double that is packed and unpacked is what it was. -/
theorem unpack_pack {u : UnpackedFloat} (h : Canonical u) :
    unpack .binary64 (pack .binary64 u) = u := by
  cases u with
  | notANumber => rfl
  | infinity s => cases s <;> rfl
  | zero s => cases s <;> rfl
  | finite s m e hm =>
    obtain ⟨hhi, helo, hehi, hcase⟩ := h
    by_cases hlo : 2 ^ 52 ≤ m
    · have hexp : (BitVec.ofNat 11 (e + 1075).toNat).toNat = (e + 1075).toNat := by
        rw [BitVec.toNat_ofNat]; omega
      have hmant : (BitVec.ofNat 52 m).toNat = m - 2 ^ 52 := by rw [BitVec.toNat_ofNat]; omega
      rw [pack_normal s hm hlo hhi helo hehi, unpack_packComponents, if_neg, if_neg]
      · congr 1
        · omega
        · omega
      · intro h
        have := congrArg BitVec.toNat h
        rw [hexp] at this
        simp at this
        omega
      · intro h
        have := congrArg BitVec.toNat h
        rw [hexp] at this
        simp at this
        omega
    · have he : e = -1074 := hcase.resolve_left hlo
      subst he
      have hmant : (BitVec.ofNat 52 m).toNat = m := by rw [BitVec.toNat_ofNat]; omega
      have hne : BitVec.ofNat 52 m ≠ 0#52 := by
        intro h
        have := congrArg BitVec.toNat h
        rw [hmant] at this
        simp at this
        omega
      rw [pack_subnormal s hm (by omega), unpack_packComponents, if_neg (by decide), if_pos rfl,
        dif_neg hne]
      congr 1

/-- What a double stands for. -/
def value (x : Float) : UnpackedFloat := x.toModel.unpack

/-- The double that stands for something. -/
def ofValue (u : UnpackedFloat) : Float := .ofModel (.pack u)

theorem canonical_value (x : Float) : Canonical (value x) := canonical_unpack _

/-- A double is packed as it was before it was unpacked. -/
theorem ofValue_value (x : Float) : ofValue (value x) = x := by
  obtain ⟨⟨bits, hv⟩⟩ := x
  have hpack : (Float.Model.pack (Float.Model.unpack ⟨bits, hv⟩)).toBits = bits :=
    congrArg UInt64.ofBitVec (pack_unpack hv)
  unfold ofValue value
  congr 1
  cases h : Float.Model.pack (Float.Model.unpack ⟨bits, hv⟩) with
  | mk b v =>
    rw [h] at hpack
    subst hpack
    rfl

theorem value_ofValue {u : UnpackedFloat} (h : Canonical u) : value (ofValue u) = u := unpack_pack h

theorem add_def (x y : Float) : x + y = ofValue (add .binary64 (value x) (value y)) := rfl

theorem sub_def (x y : Float) : x - y = ofValue (sub .binary64 (value x) (value y)) := rfl

theorem mul_def (x y : Float) : x * y = ofValue (mul .binary64 (value x) (value y)) := rfl

theorem div_def (x y : Float) : x / y = ofValue (div .binary64 (value x) (value y)) := rfl

theorem neg_def (x : Float) : -x = ofValue (neg (value x)) := rfl

/-! ### Laws -/

theorem add_comm (x y : Float) : x + y = y + x := by
  rw [add_def, add_def]
  congr 1
  cases value x with
  | notANumber => cases value y <;> rfl
  | infinity s =>
    cases value y with
    | infinity t => cases s <;> cases t <;> rfl
    | _ => rfl
  | zero s =>
    cases value y with
    | zero t => cases s <;> cases t <;> rfl
    | _ => rfl
  | finite s m e hm =>
    cases value y with
    | finite t n f hn =>
      simp only [UnpackedFloat.add]
      rw [Int.min_comm, Int.add_comm]
    | _ => rfl

theorem sign_mul_comm (s t : Sign) : s * t = t * s := by
  cases s <;> cases t <;> rfl

theorem sign_div_eq_mul (s t : Sign) : s / t = s * t := by
  cases s <;> cases t <;> rfl

theorem mul_comm (x y : Float) : x * y = y * x := by
  rw [mul_def, mul_def]
  congr 1
  cases value x <;> cases value y <;> simp only [UnpackedFloat.mul]
  all_goals try rw [sign_mul_comm]
  rw [Nat.mul_comm, Int.add_comm]

theorem add_neg_zero (x : Float) : x + -0.0 = x := by
  have hzero : value (-0.0) = .zero .negative := rfl
  conv => rhs; rw [← ofValue_value x]
  rw [add_def, hzero]
  congr 1
  cases value x with
  | zero s => cases s <;> rfl
  | _ => rfl

theorem sub_zero (x : Float) : x - 0.0 = x := by
  have hzero : value 0.0 = .zero .positive := rfl
  conv => rhs; rw [← ofValue_value x]
  rw [sub_def, hzero]
  congr 1
  cases value x with
  | zero s => cases s <;> rfl
  | _ => rfl

theorem canonical_neg {u : UnpackedFloat} (h : Canonical u) : Canonical u.neg := by
  cases u <;> exact h

theorem apply_opposite (t : Sign) (n : Int) : (-t).apply n = -t.apply n := by
  cases t <;> simp [Sign.apply]

/-- A difference is the sum with the opposite. -/
theorem sub_eq_add_neg (x y : Float) : x - y = x + -y := by
  rw [sub_def, add_def, neg_def, value_ofValue (canonical_neg (canonical_value y))]
  congr 1
  cases value x with
  | finite s m e hm =>
    cases value y with
    | finite t n f hn =>
      simp only [UnpackedFloat.sub, UnpackedFloat.add, UnpackedFloat.neg, apply_opposite,
        Int.sub_eq_add_neg]
    | _ => rfl
  | _ => cases value y <;> rfl

theorem value_one : value 1.0 = .finite .positive (2 ^ 52) (-52) (by decide) := rfl

theorem mul_one (x : Float) : x * 1.0 = x := by
  conv => rhs; rw [← ofValue_value x]
  rw [mul_def, value_one]
  congr 1
  have hx := canonical_value x
  cases hv : value x with
  | finite s m e hm =>
    rw [hv] at hx
    have hsign : s * .positive = s := by cases s <;> rfl
    show roundWithAccuracy .binary64 (s * .positive) (m * 2 ^ 52) (e - (52 : Nat)) .exact = _
    rw [hsign, roundWithAccuracy_scale s (Nat.ne_of_gt hm) 52 e (Int.le_of_eq hx.target_eq.symm),
      roundWithAccuracy_canonical hx]
  | infinity s => cases s <;> rfl
  | zero s => cases s <;> rfl
  | notANumber => rfl

/-- Dividing by a power of two is one rounding of the shifted mantissa. -/
theorem div_two_pow (s t : Sign) {m : Nat} (e f : Int) (hm : 0 < m) (hlt : m < 2 ^ 53)
    (hpow : 0 < 2 ^ 52) :
    div .binary64 (.finite s m e hm) (.finite t (2 ^ 52) f hpow) =
      roundWithAccuracy .binary64 (s * t) (m * 2 ^ 52) (e - f - 104) .exact := by
  have hne : m ≠ 0 := Nat.ne_of_gt hm
  have hlog : m.log2 < 53 := (Nat.log2_lt hne).mpr hlt
  -- the exponent at which the division is made, and by how much the mantissa is shifted for it
  obtain ⟨te, hte⟩ : ∃ te, te = min (e - f) (max (m.log2 + (e - f) - 105) (-1074)) := ⟨_, rfl⟩
  obtain ⟨k, hk⟩ : ∃ k : Nat, k = (e - f - te).toNat := ⟨_, rfl⟩
  have hcore : div .binary64 (.finite s m e hm) (.finite t (2 ^ 52) f hpow) =
      roundWithAccuracy .binary64 (s / t) (m * 2 ^ k / 2 ^ 52) te
        (accuracyOfFraction (m * 2 ^ k % 2 ^ 52) (2 ^ 52)) := by
    have htarget : min (e - f) (Format.binary64.targetExponent
        (totalExponent m e - totalExponent (2 ^ 52) f)) = te := by
      have htotal : totalExponent m e - totalExponent (2 ^ 52) f = m.log2 + (e - f) - 52 := by
        unfold totalExponent
        rw [Nat.log2_two_pow]
        omega
      rw [htotal, targetExponent_max, hte]
      omega
    unfold UnpackedFloat.div divCore
    simp only [htarget, ← hk, Nat.shiftLeft_eq]
  have hN : m * 2 ^ k ≠ 0 := Nat.mul_ne_zero hne (Nat.ne_of_gt (Nat.two_pow_pos k))
  have hlogN : (m * 2 ^ k).log2 = m.log2 + k := log2_mul_two_pow hne k
  have htN : target (m * 2 ^ k) (te - 52) = max (m.log2 + (e - f) - 104) (-1074) := by
    unfold target
    rw [hlogN]
    push_cast
    omega
  have hround := roundWithAccuracy_cut (s * t) hN 52 (te - 52) (by rw [htN]; omega)
  rw [show te - 52 + ((52 : Nat) : Int) = te by omega] at hround
  rw [hcore, sign_div_eq_mul, hround]
  by_cases hk52 : 52 ≤ k
  · have hmant : m * 2 ^ k = m * 2 ^ 52 * 2 ^ (k - 52) := by
      rw [Nat.mul_assoc, ← Nat.pow_add, Nat.add_sub_cancel' hk52]
    have hexp : te - 52 = e - f - 104 - ((k - 52 : Nat) : Int) := by omega
    rw [hmant, hexp]
    refine roundWithAccuracy_scale _ (Nat.mul_ne_zero hne (by decide)) _ _ ?_
    unfold target
    rw [log2_mul_two_pow hne]
    omega
  · have hmant : m * 2 ^ 52 = m * 2 ^ k * 2 ^ (52 - k) := by
      rw [Nat.mul_assoc, ← Nat.pow_add, Nat.add_sub_cancel' (by omega)]
    have hexp : e - f - 104 = te - 52 - ((52 - k : Nat) : Int) := by omega
    rw [hmant, hexp]
    exact (roundWithAccuracy_scale _ hN _ _ (by rw [htN]; omega)).symm

theorem toNat_exponentField (b : UInt64) :
    ((b >>> 52) &&& 0x7FF).toNat = b.toNat / 2 ^ 52 % 2 ^ 11 := by
  rw [UInt64.toNat_and, UInt64.toNat_shiftRight]
  show b.toNat >>> 52 &&& (2 ^ 11 - 1) = _
  rw [Nat.and_two_pow_sub_one_eq_mod, Nat.shiftRight_eq_div_pow]

theorem toNat_mantissaField (b : UInt64) : (b &&& 0xFFFFFFFFFFFFF).toNat = b.toNat % 2 ^ 52 := by
  rw [UInt64.toNat_and]
  show b.toNat &&& (2 ^ 52 - 1) = _
  rw [Nat.and_two_pow_sub_one_eq_mod]

/-- A normal double without bits behind the first is a power of two. -/
theorem value_of_isNormal {c : Float} (hn : Strength.isNormal c = true)
    (hm : c.toBits &&& 0xFFFFFFFFFFFFF = 0) :
    ∃ (s : Sign) (e : Int) (h : 0 < 2 ^ 52),
      value c = .finite s (2 ^ 52) e h ∧ -1074 ≤ e ∧ e ≤ 971 := by
  obtain ⟨s, ev, mv, hb⟩ := exists_packComponents c.toBits.toBitVec
  have hnat : c.toBits.toNat = s.toBitVec.toNat * 2 ^ 63 + ev.toNat * 2 ^ 52 + mv.toNat := by
    rw [← toNat_packComponents, ← hb]
    rfl
  have hev := ev.isLt
  have hmv := mv.isLt
  have hmant : mv.toNat = 0 := by
    have := congrArg UInt64.toNat hm
    rw [toNat_mantissaField, hnat, UInt64.toNat_zero] at this
    omega
  have hfield : ((c.toBits >>> 52) &&& 0x7FF).toNat = ev.toNat := by
    rw [toNat_exponentField, hnat]
    omega
  have hbounds : ev.toNat ≠ 0 ∧ ev.toNat ≠ 2 ^ 11 - 1 := by
    simp only [Strength.isNormal, Bool.and_eq_true, decide_eq_true_eq] at hn
    rw [← hfield]
    exact ⟨fun h => hn.1 (UInt64.toNat_inj.mp h), fun h => hn.2 (UInt64.toNat_inj.mp h)⟩
  refine ⟨s, ev.toNat - 1075, by decide, ?_, by omega, by omega⟩
  show unpack .binary64 c.toBits.toBitVec = _
  rw [hb, unpack_packComponents, if_neg, if_neg]
  · simp only [hmant, Nat.add_zero]
  · exact fun h => hbounds.1 (by rw [h]; rfl)
  · exact fun h => hbounds.2 (by rw [h]; rfl)

/-- The largest power of two has no normal reciprocal. -/
theorem not_isNormal_reciprocal_top (s : Sign) :
    Strength.isNormal (1.0 / ofValue (.finite s (2 ^ 52) 971 (by decide))) = false := by
  cases s <;> decide +kernel

/-- The reciprocal of a power of two is not rounded, unless it lies below the normal doubles. -/
theorem value_reciprocal {c : Float} {s : Sign} {e : Int} {hp : 0 < 2 ^ 52}
    (hv : value c = .finite s (2 ^ 52) e hp) (hlo : -1074 ≤ e) (hhi : e ≤ 970) :
    value (1.0 / c) = .finite s (2 ^ 52) (-104 - e) hp := by
  have hscale := roundWithAccuracy_scale s (show 2 ^ 52 ≠ 0 by decide) 52 (-104 - e) (by
    unfold target
    rw [Nat.log2_two_pow]
    omega)
  have hcanon : Canonical (.finite s (2 ^ 52) (-104 - e) hp) :=
    ⟨by decide, by omega, by omega, Or.inl (Nat.le_refl _)⟩
  rw [div_def, value_one, hv, div_two_pow _ _ _ _ _ (by decide),
    show -52 - e - 104 = -104 - e - ((52 : Nat) : Int) by omega,
    show Sign.positive * s = s by cases s <;> rfl, hscale, roundWithAccuracy_canonical hcanon]
  exact value_ofValue hcanon

/-- A double with an exact reciprocal and its reciprocal are powers of two. -/
theorem value_of_exactReciprocal {c r : Float} (h : Strength.exactReciprocal c = some r) :
    ∃ (s : Sign) (e : Int) (hp : 0 < 2 ^ 52), value c = .finite s (2 ^ 52) e hp ∧
      value r = .finite s (2 ^ 52) (-104 - e) hp := by
  unfold Strength.exactReciprocal at h
  split at h
  · rename_i hc
    rw [Bool.and_eq_true, decide_eq_true_eq] at hc
    obtain ⟨s, e, hp, hv, hlo, hhi⟩ := value_of_isNormal hc.1 hc.2
    simp only at h
    split at h
    · rename_i hr
      rw [Option.some.injEq] at h
      subst h
      have htop : e ≠ 971 := by
        rintro rfl
        rw [← ofValue_value c, hv, not_isNormal_reciprocal_top s] at hr
        cases hr
      exact ⟨s, e, hp, hv, value_reciprocal hv hlo (by omega)⟩
    · cases h
  · cases h

/-- Dividing by a power of two is multiplying by its reciprocal. -/
theorem div_eq_mul_of_exactReciprocal {c r : Float} (h : Strength.exactReciprocal c = some r)
    (x : Float) :
    x / c = x * r := by
  obtain ⟨t, e, hp, hc, hr⟩ := value_of_exactReciprocal h
  rw [div_def, mul_def, hc, hr]
  congr 1
  have hx := canonical_value x
  cases hv : value x with
  | notANumber => rfl
  | infinity s => exact congrArg _ (sign_div_eq_mul s t)
  | zero s => exact congrArg _ (sign_div_eq_mul s t)
  | finite s m f hm =>
    rw [hv] at hx
    rw [div_two_pow s t f e hm hx.1]
    show _ = roundWithAccuracy .binary64 (s * t) (m * 2 ^ 52) (f + (-104 - e)) .exact
    rw [show f + (-104 - e) = f - e - 104 by omega]

theorem div_one (x : Float) : x / 1.0 = x := by
  have hone : Strength.exactReciprocal 1.0 = some 1.0 := by decide +kernel
  rw [div_eq_mul_of_exactReciprocal hone, mul_one]

end StraightLine.Double

namespace StraightLine.Numeral

open Float.Model Float.Model.UnpackedFloat

/-! ### Numerals -/

/-- The numeral of a double stands for it. -/
@[simp]
theorem value_ofFloat (x : Float) : (ofFloat x).value = x := Float.ofBits_toBits x

@[simp]
theorem value_ofScientific (m : Nat) (s : Bool) (e : Nat) :
    (OfScientific.ofScientific m s e : Numeral).value = OfScientific.ofScientific m s e :=
  value_ofFloat _

/-- A numeral that stands for a number is the numeral of its value. -/
theorem ofFloat_value {c : Numeral} (h : c.value.isNaN = false) : ofFloat c.value = c := by
  have hvalue : Double.value c.value = unpack .binary64 c.bits.toBitVec :=
    Double.value_ofValue (Double.canonical_unpack _)
  have hnumber : (unpack .binary64 c.bits.toBitVec).isNaN = false := by
    rw [← hvalue]
    exact h
  have hvalid : Format.binary64.Valid c.bits.toBitVec := by
    refine ⟨fun hexponent hmantissa => ?_⟩
    simp [UnpackedFloat.unpack, hexponent, hmantissa, UnpackedFloat.isNaN] at hnumber
  have hbits : c.value.toBits = c.bits := congrArg UInt64.ofBitVec (Double.pack_unpack hvalid)
  rw [ofFloat, hbits]

/-- Two numerals have the same value exactly if they are the same or neither stands for a
number. -/
theorem value_inj {c d : Numeral} :
    c.value = d.value ↔ c = d ∨ c.value.isNaN = true ∧ d.value.isNaN = true := by
  constructor
  · intro h
    cases hc : c.value.isNaN with
    | true => exact .inr ⟨rfl, h ▸ hc⟩
    | false => exact .inl (by rw [← ofFloat_value hc, h, ofFloat_value (h ▸ hc)])
  · rintro (rfl | ⟨hc, hd⟩)
    · rfl
    · simp only [Float.isNaN_eq_decide_eq_nan, decide_eq_true_eq] at hc hd
      rw [hc, hd]

end StraightLine.Numeral
