import StraightLine.Proofs.Doubles

/-!
# Doubles as rationals

A finite double stands for a rational (`rational?`), and a rational rounds to the double that is
nearest to it, to the one with the even mantissa if there are two, and to an infinity if it is too
large (`Rounds`). The product of two doubles is what the product of their rationals rounds to
(`rounds_mul`).

The mantissa of a product is cut off at its target, and what is left is the nearest multiple of a
power of two (`nearest_multiple`). No other double is as near: those that are not such multiples all
lie below the first one with as many digits.
-/

namespace StraightLine.Rounding

open Float.Model Float.Model.UnpackedFloat
open Double (value ofValue Canonical target canonical_value value_ofValue exists_packComponents
  toNat_packComponents unpack_packComponents)

/-! ### Rationals -/

/-- The rational that a double stands for, by the fields of its bits: a sign, an exponent, and a
mantissa with one more bit in front unless the exponent is the least. Infinities and what is not a
number stand for none. -/
def rational? (x : Float) : Option ℚ :=
  let b : ℕ := x.toBits.toNat
  let exponent : ℕ := b / 2 ^ 52 % 2 ^ 11
  let mantissa : ℕ := if exponent = 0 then b % 2 ^ 52 else 2 ^ 52 + b % 2 ^ 52
  if exponent = 2 ^ 11 - 1 then none
  else some ((-1) ^ (b / 2 ^ 63) * mantissa * 2 ^ ((max exponent 1 : ℕ) - 1075 : ℤ))

/-- A double is what a rational rounds to. -/
structure Rounds (q : ℚ) (y : Float) : Prop where
  /-- The sign is kept, also where zero is nearest. -/
  sign : q ≠ 0 → (y.toBits.toNat / 2 ^ 63 = 1 ↔ q < 0)
  /-- No double is nearer, and if another is as near, the last bit of this one is zero. -/
  nearest : |q| < 2 ^ 1024 - 2 ^ 970 → ∃ p, rational? y = some p ∧
    ∀ z p', rational? z = some p' → |q - p| ≤ |q - p'| ∧
      (|q - p| = |q - p'| → p' = p ∨ y.toBits.toNat % 2 = 0)
  /-- From the middle between the largest double and the next power of two on, it is infinite. -/
  overflow : 2 ^ 1024 - 2 ^ 970 ≤ |q| → y.toBits.toNat % 2 ^ 63 = (2 ^ 11 - 1) * 2 ^ 52

/-- The rational that an unpacked double stands for. -/
def unpackedRational? : UnpackedFloat → Option ℚ
  | .finite s m e _ => some (s.apply m * 2 ^ e)
  | .zero _ => some 0
  | _ => none

theorem apply_eq (s : Sign) (n : Nat) : ((s.apply n : ℤ) : ℚ) = (-1) ^ s.toBitVec.toNat * n := by
  cases s <;> simp [Sign.apply, Sign.toBitVec]

theorem abs_apply (s : Sign) (n : Nat) : |((s.apply n : ℤ) : ℚ)| = n := by
  cases s <;> simp [Sign.apply]

/-- The bits of a double, and what it stands for, by its fields. -/
theorem exists_fields (x : Float) : ∃ (s : Sign) (ev : BitVec 11) (mv : BitVec 52),
    value x = unpack .binary64 (packComponents .binary64 s ev mv) ∧
      x.toBits.toNat = s.toBitVec.toNat * 2 ^ 63 + ev.toNat * 2 ^ 52 + mv.toNat := by
  obtain ⟨s, ev, mv, hb⟩ := exists_packComponents x.toBits.toBitVec
  refine ⟨s, ev, mv, by rw [← hb]; rfl, ?_⟩
  rw [← toNat_packComponents, ← hb]
  rfl

/-- A double stands for the same rational before and after it is unpacked. -/
theorem rational?_eq (x : Float) : rational? x = unpackedRational? (value x) := by
  obtain ⟨s, ev, mv, hvalue, hbits⟩ := exists_fields x
  have hs := s.toBitVec.isLt
  have hev := ev.isLt
  have hmv := mv.isLt
  have hsign : x.toBits.toNat / 2 ^ 63 = s.toBitVec.toNat := by omega
  have hexponent : x.toBits.toNat / 2 ^ 52 % 2 ^ 11 = ev.toNat := by omega
  have hmantissa : x.toBits.toNat % 2 ^ 52 = mv.toNat := by omega
  have htop : ev.toNat = 2 ^ 11 - 1 ↔ ev = -1#11 := by rw [BitVec.toNat_eq]; rfl
  have hleast : ev.toNat = 0 ↔ ev = 0#11 := by rw [BitVec.toNat_eq]; rfl
  simp only [rational?, hsign, hexponent, hmantissa, hvalue, unpack_packComponents, htop, hleast]
  split_ifs with htop' hinf hleast' hzero
  · rfl
  · rfl
  · simp [unpackedRational?, hzero]
  · rw [unpackedRational?, apply_eq, hleast']
    rfl
  · have hpos : 1 ≤ ev.toNat := Nat.one_le_iff_ne_zero.2 (mt hleast.1 hleast')
    rw [unpackedRational?, apply_eq, max_eq_left hpos]

variable {x y z : Float} {p q : ℚ} {s t : Sign} {m n : Nat} {e f : Int} {hm : 0 < m}

theorem rational?_of_value (h : value x = .finite s m e hm) :
    rational? x = some (((s.apply m : ℤ) : ℚ) * 2 ^ e) := by
  rw [rational?_eq, h, unpackedRational?]

/-- What a double is that stands for a rational. -/
theorem value_of_rational? (h : rational? x = some q) :
    (q = 0 ∧ ∃ s, value x = .zero s) ∨
      ∃ (s : Sign) (m : Nat) (e : Int) (hm : 0 < m),
        value x = .finite s m e hm ∧ q = ((s.apply m : ℤ) : ℚ) * 2 ^ e := by
  rw [rational?_eq] at h
  cases hv : value x with
  | finite s m e hm =>
    rw [hv, unpackedRational?, Option.some.injEq] at h
    exact .inr ⟨s, m, e, hm, rfl, h.symm⟩
  | zero s =>
    rw [hv, unpackedRational?, Option.some.injEq] at h
    exact .inl ⟨h.symm, s, rfl⟩
  | infinity s =>
    rw [hv] at h
    cases h
  | notANumber =>
    rw [hv] at h
    cases h

theorem finite_of_rational? (h : rational? x = some q) (hq : q ≠ 0) :
    ∃ (s : Sign) (m : Nat) (e : Int) (hm : 0 < m),
      value x = .finite s m e hm ∧ q = ((s.apply m : ℤ) : ℚ) * 2 ^ e :=
  (value_of_rational? h).resolve_left fun h => hq h.1

/-! ### Bits -/

theorem bits_of_finite (h : value y = .finite s m e hm) :
    y.toBits.toNat / 2 ^ 63 = s.toBitVec.toNat ∧ y.toBits.toNat % 2 = m % 2 := by
  obtain ⟨s', ev, mv, hvalue, hbits⟩ := exists_fields y
  have hs := s'.toBitVec.isLt
  have hev := ev.isLt
  have hmv := mv.isLt
  rw [hvalue, unpack_packComponents] at h
  split_ifs at h <;> obtain ⟨rfl, rfl, -⟩ := UnpackedFloat.finite.inj h <;> omega

theorem bits_of_zero (h : value y = .zero s) :
    y.toBits.toNat / 2 ^ 63 = s.toBitVec.toNat ∧ y.toBits.toNat % 2 = 0 := by
  obtain ⟨s', ev, mv, hvalue, hbits⟩ := exists_fields y
  have hs := s'.toBitVec.isLt
  have hev := ev.isLt
  rw [hvalue, unpack_packComponents] at h
  split_ifs at h with _ _ _ hzero
  obtain rfl := UnpackedFloat.zero.inj h
  have hmv : mv.toNat = 0 := by rw [hzero]; rfl
  omega

theorem bits_of_infinity (h : value y = .infinity s) :
    y.toBits.toNat / 2 ^ 63 = s.toBitVec.toNat ∧
      y.toBits.toNat % 2 ^ 63 = (2 ^ 11 - 1) * 2 ^ 52 := by
  obtain ⟨s', ev, mv, hvalue, hbits⟩ := exists_fields y
  have hs := s'.toBitVec.isLt
  rw [hvalue, unpack_packComponents] at h
  split_ifs at h with htop hzero
  obtain rfl := UnpackedFloat.infinity.inj h
  have hev : ev.toNat = 2 ^ 11 - 1 := by rw [htop]; rfl
  have hmv : mv.toNat = 0 := by rw [hzero]; rfl
  omega

/-! ### Rounding to a multiple -/

/-- The natural number nearest to a fraction, and the even one of two. -/
def nearestEven (n d : Nat) : Nat := (accuracyOfFraction (n % d) d).roundToNearestEven (n / d)

theorem nearestEven_cases (n d : Nat) :
    (2 * (n % d) < d ∨ n % d = 0) ∧ nearestEven n d = n / d ∨
      2 * (n % d) = d ∧ nearestEven n d = n / d + n / d % 2 ∨
      d < 2 * (n % d) ∧ nearestEven n d = n / d + 1 := by
  unfold nearestEven accuracyOfFraction
  split_ifs with hzero
  · exact .inl ⟨.inr hzero, rfl⟩
  · cases hc : compare (2 * (n % d)) d with
    | lt => exact .inl ⟨.inl (Nat.compare_eq_lt.1 hc), rfl⟩
    | eq => exact .inr (.inl ⟨Nat.compare_eq_eq.1 hc, rfl⟩)
    | gt => exact .inr (.inr ⟨Nat.compare_eq_gt.1 hc, rfl⟩)

/-- How far a number is from the multiples of another, those from its quotient on down and those
above. -/
theorem abs_mul_add {d r : ℕ} (hr : r < d) (t : ℤ) :
    (0 ≤ t ∧ (r : ℤ) ≤ |t * d + r| ∧ (|t * d + r| = r → t = 0)) ∨
      (t < 0 ∧ (d - r : ℤ) ≤ |t * d + r| ∧ (|t * d + r| = d - r → t = -1)) := by
  rcases lt_trichotomy t 0 with ht | rfl | ht
  · right
    have habs : |t * d + r| = -(t * d + r) := abs_of_neg (by nlinarith)
    refine ⟨ht, by nlinarith, fun h => ?_⟩
    have hprod : (t + 1) * (d : ℤ) = 0 := by linarith
    rcases mul_eq_zero.1 hprod with h | h <;> omega
  · exact .inl ⟨le_rfl, by simp, fun _ => rfl⟩
  · left
    have habs : |t * d + r| = t * d + r := abs_of_nonneg (by positivity)
    refine ⟨ht.le, by nlinarith, fun h => ?_⟩
    have hprod : t * (d : ℤ) = 0 := by linarith
    rcases mul_eq_zero.1 hprod with h | h <;> omega

theorem nearestEven_le {n d : ℕ} (hd : 0 < d) (j : ℤ) :
    |(n : ℤ) - nearestEven n d * d| ≤ |n - j * d| ∧
      (|(n : ℤ) - nearestEven n d * d| = |n - j * d| →
        j = nearestEven n d ∨ nearestEven n d % 2 = 0) := by
  have hlt := Nat.mod_lt n hd
  have hdist (j : ℤ) : (n : ℤ) - j * d = ((n / d : ℕ) - j) * d + (n % d : ℕ) := by
    have hn : (n : ℤ) = (n / d : ℕ) * d + (n % d : ℕ) := by
      exact_mod_cast (Nat.div_add_mod' n d).symm
    rw [hn]
    push_cast
    ring
  have hj := abs_mul_add hlt ((n / d : ℕ) - j)
  have hstay : |((n % d : ℕ) : ℤ)| = (n % d : ℕ) := abs_of_nonneg (by positivity)
  have hup : |-1 * (d : ℤ) + (n % d : ℕ)| = d - (n % d : ℕ) := by
    rw [abs_of_neg (by omega)]
    ring
  rw [hdist, hdist]
  rcases nearestEven_cases n d with ⟨hr, hv⟩ | ⟨hr, hv⟩ | ⟨hr, hv⟩
  · rw [hv, sub_self, zero_mul, zero_add, hstay]
    omega
  · rcases Nat.mod_two_eq_zero_or_one (n / d) with heven | hodd
    · rw [hv, heven, add_zero, sub_self, zero_mul, zero_add, hstay]
      omega
    · rw [hv, hodd, Nat.cast_add, Nat.cast_one, sub_add_cancel_left, hup]
      omega
  · rw [hv, Nat.cast_add, Nat.cast_one, sub_add_cancel_left, hup]
    omega

/-- The mantissa that a number is rounded to at its target. -/
def rounded (n : ℕ) (f : ℤ) : ℕ := nearestEven n (2 ^ (target n f - f).toNat)

section Rounded

variable (hn : n ≠ 0) (hf : f ≤ target n f)

include hf in
theorem two_zpow_target : (2 : ℚ) ^ target n f = (2 ^ (target n f - f).toNat : ℕ) * 2 ^ f := by
  rw [Nat.cast_pow, Nat.cast_ofNat, ← zpow_natCast, ← zpow_add₀ two_ne_zero]
  congr 1
  omega

include hf in
/-- **A number is rounded to the nearest multiple of its target, and to an even one if there are
two.** -/
theorem nearest_multiple (j : ℤ) :
    |(n * 2 ^ f - rounded n f * 2 ^ target n f : ℚ)| ≤ |(n * 2 ^ f - j * 2 ^ target n f : ℚ)| ∧
      (|(n * 2 ^ f - rounded n f * 2 ^ target n f : ℚ)| =
          |(n * 2 ^ f - j * 2 ^ target n f : ℚ)| →
        j = rounded n f ∨ rounded n f % 2 = 0) := by
  obtain ⟨d, hd⟩ : ∃ d, d = 2 ^ (target n f - f).toNat := ⟨_, rfl⟩
  have hpos : (0 : ℚ) < 2 ^ f := by positivity
  have hscale (j : ℤ) :
      |(n * 2 ^ f - j * 2 ^ target n f : ℚ)| = (|(n : ℤ) - j * d| : ℤ) * 2 ^ f := by
    rw [two_zpow_target hf, ← hd, ← mul_assoc, ← sub_mul, abs_mul, abs_of_pos hpos]
    push_cast
    rfl
  have hrounded := hscale (rounded n f)
  rw [Int.cast_natCast] at hrounded
  rw [hrounded, hscale j, mul_le_mul_iff_left₀ hpos, mul_left_inj' hpos.ne', Int.cast_le,
    Int.cast_inj, rounded, ← hd]
  exact nearestEven_le (hd ▸ Nat.two_pow_pos _) j

include hn in
theorem lt_two_pow_target : n < 2 ^ 53 * 2 ^ (target n f - f).toNat := by
  rw [← Nat.pow_add]
  refine (Nat.log2_lt hn).1 ?_
  unfold target
  omega

include hn hf in
/-- Unless the target is the least, the mantissa is not shorter than that of a normal double. -/
theorem two_pow_target_le (ht : target n f ≠ -1074) : 2 ^ 52 * 2 ^ (target n f - f).toNat ≤ n := by
  rw [← Nat.pow_add]
  refine (Nat.le_log2 hn).1 ?_
  unfold target at ht hf ⊢
  omega

theorem div_le_nearestEven (n d : ℕ) : n / d ≤ nearestEven n d ∧ nearestEven n d ≤ n / d + 1 := by
  rcases nearestEven_cases n d with ⟨-, h⟩ | ⟨-, h⟩ | ⟨-, h⟩ <;> omega

include hn in
theorem rounded_le : rounded n f ≤ 2 ^ 53 := by
  have hlt := (Nat.div_lt_iff_lt_mul (Nat.two_pow_pos _)).2 (lt_two_pow_target (f := f) hn)
  have hle := (div_le_nearestEven n (2 ^ (target n f - f).toNat)).2
  unfold rounded
  omega

include hn hf in
theorem le_rounded (ht : target n f ≠ -1074) : 2 ^ 52 ≤ rounded n f :=
  ((Nat.le_div_iff_mul_le (Nat.two_pow_pos _)).2 (two_pow_target_le hn hf ht)).trans
    (div_le_nearestEven n _).1

include hn hf in
theorem magnitude_lt : (n * 2 ^ f : ℚ) < 2 ^ 53 * 2 ^ target n f := by
  rw [two_zpow_target hf, ← mul_assoc]
  gcongr
  exact_mod_cast lt_two_pow_target hn

include hn hf in
theorem le_magnitude (ht : target n f ≠ -1074) : (2 ^ 52 * 2 ^ target n f : ℚ) ≤ n * 2 ^ f := by
  rw [two_zpow_target hf, ← mul_assoc]
  gcongr
  exact_mod_cast two_pow_target_le hn hf ht

end Rounded

/-- A double is a multiple of a power of two, or smaller than all the normal doubles of which that
is the last digit. -/
theorem multiple_or_small (k : ℤ) (h : rational? z = some p) :
    (∃ j : ℤ, p = j * 2 ^ k) ∨ k ≠ -1074 ∧ |p| < 2 ^ 52 * 2 ^ k := by
  rcases value_of_rational? h with ⟨rfl, -⟩ | ⟨s, m, e, hm, hv, rfl⟩
  · exact .inl ⟨0, by simp⟩
  · have hcanon := canonical_value z
    rw [hv] at hcanon
    obtain ⟨hlt, hleast, -, -⟩ := hcanon
    rcases le_or_gt k e with hke | hke
    · refine .inl ⟨s.apply m * 2 ^ (e - k).toNat, ?_⟩
      have hpow : (2 : ℚ) ^ e = 2 ^ (e - k).toNat * 2 ^ k := by
        rw [← zpow_natCast, ← zpow_add₀ two_ne_zero]
        congr 1
        omega
      rw [hpow]
      push_cast
      ring
    · refine .inr ⟨by omega, ?_⟩
      have hpos : (0 : ℚ) < 2 ^ e := by positivity
      have hstep : (2 : ℚ) ^ e * 2 ≤ 2 ^ k := by
        rw [← zpow_add_one₀ two_ne_zero]
        exact zpow_le_zpow_right₀ one_le_two hke
      have hmant : (m : ℚ) < 2 ^ 53 := by exact_mod_cast hlt
      rw [abs_mul, abs_apply, abs_of_pos hpos]
      calc (m : ℚ) * 2 ^ e < 2 ^ 53 * 2 ^ e := by gcongr
        _ = 2 ^ 52 * (2 ^ e * 2) := by ring
        _ ≤ 2 ^ 52 * 2 ^ k := by gcongr

/-- **No double is nearer to a number than what it is rounded to.** -/
theorem nearest_double (hn : n ≠ 0) (hf : f ≤ target n f) (h : rational? z = some p) :
    |(n * 2 ^ f - rounded n f * 2 ^ target n f : ℚ)| ≤ |n * 2 ^ f - p| ∧
      (|(n * 2 ^ f - rounded n f * 2 ^ target n f : ℚ)| = |n * 2 ^ f - p| →
        p = rounded n f * 2 ^ target n f ∨ rounded n f % 2 = 0) := by
  rcases multiple_or_small (target n f) h with ⟨j, rfl⟩ | ⟨ht, hsmall⟩
  · obtain ⟨hle, htie⟩ := nearest_multiple hf j
    refine ⟨hle, fun heq => (htie heq).imp_left ?_⟩
    rintro rfl
    rw [Int.cast_natCast]
  · -- The first multiple with 53 digits lies between the double and the number.
    have hfirst := le_magnitude hn hf ht
    have hle := (nearest_multiple hf (2 ^ 52)).1
    have hbelow := (abs_lt.1 hsmall).2
    rw [Int.cast_pow, Int.cast_ofNat, abs_of_nonneg (sub_nonneg.2 hfirst)] at hle
    rw [abs_of_pos (a := (n * 2 ^ f - p : ℚ)) (by linarith)]
    exact ⟨by linarith, fun heq => by linarith⟩

/-! ### Rounding -/

theorem shiftToTargetExponent_short (hm : m < 2 ^ 53) (he : -1074 ≤ e) :
    shiftToTargetExponent .binary64 m e .exact = (⟨m, false, false⟩, e) := by
  have hz : (target m e - e).toNat = 0 := by
    have hlog : m.log2 < 53 := by
      rcases Nat.eq_zero_or_pos m with rfl | hpos
      · decide
      · exact (Nat.log2_lt (Nat.ne_of_gt hpos)).2 hm
    unfold target
    omega
  show (ExtendedMantissa.ofMantissaAndAccuracy m .exact >>> (target m e - e).toNat,
    e + ((target m e - e).toNat : Int)) = _
  rw [hz]
  exact Prod.ext rfl (add_zero e)

theorem shiftToTargetExponent_long (he : -1074 ≤ e) :
    shiftToTargetExponent .binary64 (2 ^ 53) e .exact = (⟨2 ^ 52, false, false⟩, e + 1) := by
  have hz : (target (2 ^ 53) e - e).toNat = 1 := by
    unfold target
    rw [Nat.log2_two_pow]
    omega
  show (ExtendedMantissa.ofMantissaAndAccuracy (2 ^ 53) .exact >>> (target (2 ^ 53) e - e).toNat,
    e + ((target (2 ^ 53) e - e).toNat : Int)) = _
  rw [hz]
  rfl

theorem roundedMantissa_of (n : ℕ) (a : Accuracy) :
    (ExtendedMantissa.ofMantissaAndAccuracy n a).roundedMantissa = a.roundToNearestEven n := by
  rcases a with _ | o
  · rfl
  · cases o <;> rfl

/-- What a number is rounded to, before it is packed: the nearest multiple of its target, once more
shifted if it has a digit too many. -/
theorem round_cases (s : Sign) (hn : n ≠ 0) (hf : f ≤ target n f) :
    (rounded n f = 0 ∧ roundWithAccuracy .binary64 s n f .exact = .zero s) ∨
      ∃ (m : ℕ) (e : ℤ) (hm : 0 < m),
        roundWithAccuracy .binary64 s n f .exact = .finite s m e hm ∧
        (m * 2 ^ e : ℚ) = rounded n f * 2 ^ target n f ∧
        (rounded n f % 2 = 0 → m % 2 = 0) ∧
        m < 2 ^ 53 ∧ -1074 ≤ e ∧ (2 ^ 52 ≤ m ∨ e = -1074) := by
  have hk : -1074 ≤ target n f := le_max_right _ _
  have hround : roundWithAccuracy .binary64 s n f .exact =
      Double.ofShifted s
        (shiftToTargetExponent .binary64 (rounded n f) (target n f) .exact) := by
    rw [Double.roundWithAccuracy_eq, ← Double.ofMantissaAndAccuracy_div, Double.finish,
      roundedMantissa_of, show f + ((target n f - f).toNat : ℤ) = target n f by omega]
    rfl
  rcases (rounded_le (f := f) hn).lt_or_eq with hlt | heq
  · rw [shiftToTargetExponent_short hlt hk] at hround
    rcases Nat.eq_zero_or_pos (rounded n f) with hzero | hpos
    · exact .inl ⟨hzero, hround.trans (dif_pos hzero)⟩
    · refine .inr ⟨rounded n f, target n f, hpos, hround.trans (dif_neg hpos.ne'), rfl, id, hlt, hk,
        ?_⟩
      exact or_iff_not_imp_right.2 (le_rounded hn hf)
  · rw [heq, shiftToTargetExponent_long hk] at hround
    refine .inr ⟨2 ^ 52, target n f + 1, by decide, hround, ?_, fun _ => by decide, by decide,
      by omega, .inl le_rfl⟩
    rw [heq, zpow_add_one₀ two_ne_zero]
    push_cast
    ring

/-- A number with too large an exponent is packed as an infinity. -/
theorem value_ofValue_overflow (he : 971 < e) :
    value (ofValue (.finite s m e hm)) = .infinity s := by
  have hexp :
      (e + Format.binary64.exponentBias + Format.binary64.mantissaBitsWithoutImplicit).toNat =
      (e + 1075).toNat := by
    show (e + 1023 + 52).toNat = _
    omega
  have hpack : pack .binary64 (.finite s m e hm) = pack .binary64 (.infinity s) := by
    unfold UnpackedFloat.pack
    simp only [hexp]
    rw [if_pos]
    show 2 ^ 11 ≤ _
    omega
  show unpack .binary64 (pack .binary64 (.finite s m e hm)) = _
  rw [hpack]
  exact value_ofValue (u := .infinity s) trivial

theorem sign_iff (s : Sign) (hq : 0 < q) :
    s.toBitVec.toNat = 1 ↔ ((s.apply 1 : ℤ) : ℚ) * q < 0 := by
  cases s with
  | positive => simp [Sign.apply, Sign.toBitVec, hq.le]
  | negative => simp [Sign.apply, Sign.toBitVec, hq]

theorem apply_eq_mul (s : Sign) (n : ℕ) :
    ((s.apply n : ℤ) : ℚ) = ((s.apply 1 : ℤ) : ℚ) * n := by
  cases s <;> simp [Sign.apply]

theorem rational?_neg (h : rational? x = some q) : rational? (-x) = some (-q) := by
  rw [rational?_eq, Double.neg_def, value_ofValue (Double.canonical_neg (canonical_value x))]
  rcases value_of_rational? h with ⟨rfl, s, hv⟩ | ⟨s, m, e, hm, hv, rfl⟩
  · rw [hv]
    simp [UnpackedFloat.neg, unpackedRational?]
  · rw [hv, UnpackedFloat.neg, unpackedRational?, Double.apply_opposite, Int.cast_neg, neg_mul]

/-- The last digit of the largest double. -/
@[irreducible] def lastDigit : ℚ := 2 ^ (971 : ℤ)

theorem lastDigit_eq : lastDigit = 2 ^ (971 : ℤ) := by rw [lastDigit]

theorem lastDigit_pos : 0 < lastDigit := by
  rw [lastDigit_eq]
  positivity

theorem overflow_eq : (2 ^ 1024 - 2 ^ 970 : ℚ) = (2 ^ 53 - 1 / 2) * lastDigit := by
  have hdigit : lastDigit = 2 ^ 970 * 2 := by
    rw [lastDigit_eq, ← pow_succ]
    exact zpow_natCast 2 971
  rw [hdigit, show (1024 : ℕ) = 53 + (970 + 1) from rfl, pow_add, pow_succ 2 970]
  generalize (2 : ℚ) ^ 970 = half
  ring

theorem two_zpow_le {k : ℤ} (hk : k ≤ 971) : (2 : ℚ) ^ k ≤ lastDigit := by
  rw [lastDigit_eq]
  exact zpow_le_zpow_right₀ one_le_two hk

theorem two_mul_two_zpow_le {k : ℤ} (hk : k < 971) : 2 * (2 : ℚ) ^ k ≤ lastDigit := by
  rw [mul_comm, ← zpow_add_one₀ two_ne_zero]
  exact two_zpow_le hk

theorem two_mul_le_two_zpow {k : ℤ} (hk : 971 < k) : 2 * lastDigit ≤ (2 : ℚ) ^ k := by
  rw [lastDigit_eq, mul_comm, ← zpow_add_one₀ two_ne_zero]
  exact zpow_le_zpow_right₀ one_le_two hk

section Overflow

variable (hn : n ≠ 0) (hf : f ≤ target n f)
  (hvalue : (m * 2 ^ e : ℚ) = rounded n f * 2 ^ target n f)

include hn hf hvalue

/-- What gets too large an exponent was too large. -/
theorem overflow_of_exponent (hlong : 2 ^ 52 ≤ m) (he : 971 < e) :
    (2 ^ 53 - 1 / 2) * lastDigit ≤ n * 2 ^ f := by
  by_contra hsmall
  rw [not_le] at hsmall
  have hpos := lastDigit_pos
  have hlarge : 2 ^ 53 * lastDigit ≤ rounded n f * 2 ^ target n f := by
    have hmant : (2 ^ 52 : ℚ) ≤ m := by exact_mod_cast hlong
    have hdigit := two_mul_le_two_zpow he
    have hproduct : (2 ^ 52 : ℚ) * (2 * lastDigit) ≤ m * 2 ^ e := by gcongr
    linarith
  have hle : (rounded n f : ℚ) ≤ 2 ^ 53 := by exact_mod_cast rounded_le hn
  rcases lt_trichotomy (target n f) 971 with ht | ht | ht
  · have hdigit := two_mul_two_zpow_le ht
    have hproduct : rounded n f * (2 : ℚ) ^ target n f ≤ 2 ^ 53 * 2 ^ target n f := by gcongr
    linarith
  · -- The largest double would have been nearer.
    have hnear := (nearest_multiple hf (2 ^ 53 - 1)).1
    rw [ht, ← lastDigit_eq] at hnear hlarge
    have hrounded : (rounded n f : ℚ) = 2 ^ 53 :=
      le_antisymm hle (le_of_mul_le_mul_right hlarge hpos)
    rw [hrounded, Int.cast_sub, Int.cast_pow, Int.cast_ofNat, Int.cast_one] at hnear
    rcases abs_cases (n * 2 ^ f - 2 ^ 53 * lastDigit : ℚ) with h | h <;>
      rcases abs_cases (n * 2 ^ f - (2 ^ 53 - 1) * lastDigit : ℚ) with h' | h' <;> linarith
  · have hfirst := le_magnitude hn hf (by omega)
    have hdigit := two_mul_le_two_zpow ht
    linarith

/-- What is too large gets too large an exponent. -/
theorem exponent_of_overflow (hm : m < 2 ^ 53)
    (hlarge : (2 ^ 53 - 1 / 2) * lastDigit ≤ n * 2 ^ f) : 971 < e := by
  by_contra hsmall
  rw [not_lt] at hsmall
  have hpos := lastDigit_pos
  have hle : rounded n f * 2 ^ target n f ≤ (2 ^ 53 - 1) * lastDigit := by
    have hmant : (m : ℚ) ≤ 2 ^ 53 - 1 := by
      have hsucc : (m : ℚ) + 1 ≤ 2 ^ 53 := by exact_mod_cast hm
      linarith
    have hdigit := two_zpow_le hsmall
    rw [← hvalue]
    gcongr
  have hlt := magnitude_lt hn hf
  rcases lt_trichotomy (target n f) 971 with ht | ht | ht
  · have hdigit := two_mul_two_zpow_le ht
    linarith
  · -- The next power of two is no farther. So both are as near, and the largest double is odd.
    obtain ⟨hnear, htie⟩ := nearest_multiple hf (2 ^ 53)
    rw [ht, ← lastDigit_eq, Int.cast_pow, Int.cast_ofNat] at hnear htie
    rw [ht, ← lastDigit_eq] at hle hlt
    have hbelow : |(n * 2 ^ f - rounded n f * lastDigit : ℚ)| =
        n * 2 ^ f - rounded n f * lastDigit := abs_of_nonneg (by linarith)
    have habove : |(n * 2 ^ f - 2 ^ 53 * lastDigit : ℚ)| =
        -(n * 2 ^ f - 2 ^ 53 * lastDigit) := abs_of_neg (by linarith)
    have hlargest : (rounded n f : ℚ) = 2 ^ 53 - 1 := by
      rw [hbelow, habove] at hnear
      exact mul_right_cancel₀ hpos.ne' (by linarith)
    have hodd : rounded n f = 2 ^ 53 - 1 := by
      have hsucc : (rounded n f : ℚ) + 1 = 2 ^ 53 := by linarith
      have hnat : rounded n f + 1 = 2 ^ 53 := by exact_mod_cast hsucc
      omega
    have hequal : |(n * 2 ^ f - rounded n f * lastDigit : ℚ)| =
        |(n * 2 ^ f - 2 ^ 53 * lastDigit : ℚ)| := by
      rw [hbelow, habove] at hnear ⊢
      rw [hlargest] at hnear ⊢
      linarith
    rcases htie hequal with h | h <;> omega
  · have hdigit := two_mul_le_two_zpow ht
    have hfirst : (2 ^ 52 : ℚ) ≤ rounded n f := by exact_mod_cast le_rounded hn hf (by omega)
    have hproduct : 2 ^ 52 * (2 * lastDigit) ≤ rounded n f * 2 ^ target n f := by gcongr
    linarith

end Overflow

/-- A number with a sign is as near to doubles as the number itself. -/
theorem nearest_signed (s : Sign) (hn : n ≠ 0) (hf : f ≤ target n f) (h : rational? z = some p) :
    |((s.apply n : ℤ) * 2 ^ f - (s.apply (rounded n f) : ℤ) * 2 ^ target n f : ℚ)| ≤
        |((s.apply n : ℤ) * 2 ^ f - p : ℚ)| ∧
      (|((s.apply n : ℤ) * 2 ^ f - (s.apply (rounded n f) : ℤ) * 2 ^ target n f : ℚ)| =
          |((s.apply n : ℤ) * 2 ^ f - p : ℚ)| →
        p = (s.apply (rounded n f) : ℤ) * 2 ^ target n f ∨ rounded n f % 2 = 0) := by
  cases s with
  | positive => exact nearest_double hn hf h
  | negative =>
    obtain ⟨hle, htie⟩ := nearest_double hn hf (rational?_neg h)
    have happly (k : ℕ) : ((Sign.negative.apply k : ℤ) : ℚ) = -k := by simp [Sign.apply]
    have hflip (a : ℚ) : |-(n * 2 ^ f) - a| = |n * 2 ^ f - -a| := by
      rw [← abs_neg]
      congr 1
      ring
    rw [happly, happly, neg_mul, neg_mul, hflip, hflip, neg_neg]
    exact ⟨hle, fun heq => (htie heq).imp_left neg_eq_iff_eq_neg.1⟩

/-- **Rounding gives what a number rounds to.** -/
theorem rounds_round (s : Sign) (hn : n ≠ 0) (hf : f ≤ target n f) :
    Rounds ((s.apply n : ℤ) * 2 ^ f) (ofValue (roundWithAccuracy .binary64 s n f .exact)) := by
  have hpos : (0 : ℚ) < n * 2 ^ f := by
    have : (0 : ℚ) < n := by exact_mod_cast Nat.pos_of_ne_zero hn
    positivity
  have habs : |((s.apply n : ℤ) * 2 ^ f : ℚ)| = n * 2 ^ f := by
    rw [abs_mul, abs_apply, abs_of_pos (show (0 : ℚ) < 2 ^ f by positivity)]
  have hsign : s.toBitVec.toNat = 1 ↔ ((s.apply n : ℤ) * 2 ^ f : ℚ) < 0 := by
    rw [apply_eq_mul, mul_assoc]
    exact sign_iff s hpos
  obtain ⟨y, hy⟩ : ∃ y, y = ofValue (roundWithAccuracy .binary64 s n f .exact) := ⟨_, rfl⟩
  rw [← hy]
  -- It is enough that the nearest multiple is what the result stands for.
  have hnearest (hp : rational? y = some (((s.apply (rounded n f) : ℤ) : ℚ) * 2 ^ target n f))
      (heven : rounded n f % 2 = 0 → y.toBits.toNat % 2 = 0) :
      ∃ p, rational? y = some p ∧ ∀ z p', rational? z = some p' →
        |((s.apply n : ℤ) * 2 ^ f : ℚ) - p| ≤ |((s.apply n : ℤ) * 2 ^ f : ℚ) - p'| ∧
        (|((s.apply n : ℤ) * 2 ^ f : ℚ) - p| = |((s.apply n : ℤ) * 2 ^ f : ℚ) - p'| →
          p' = p ∨ y.toBits.toNat % 2 = 0) := by
    refine ⟨_, hp, fun z p' hz => ?_⟩
    obtain ⟨hle, htie⟩ := nearest_signed s hn hf hz
    exact ⟨hle, fun heq => (htie heq).imp_right heven⟩
  rcases round_cases s hn hf with ⟨hzero, hr⟩ | ⟨m, e, hm, hr, hvalue, heven, hlt, he, hlong⟩
  · have hv : value y = .zero s := by
      rw [hy, hr]
      exact value_ofValue trivial
    obtain ⟨hbit, hlast⟩ := bits_of_zero hv
    refine ⟨fun _ => by rw [hbit, hsign], fun _ => hnearest ?_ fun _ => hlast, fun hlarge => ?_⟩
    · rw [rational?_eq, hv, unpackedRational?, hzero, apply_eq, Nat.cast_zero, mul_zero, zero_mul]
    · rw [habs, overflow_eq] at hlarge
      have hnone : ((0 : ℕ) * 2 ^ (0 : ℤ) : ℚ) = rounded n f * 2 ^ target n f := by simp [hzero]
      exact absurd (exponent_of_overflow hn hf hnone (by decide) hlarge) (by decide)
  · rcases le_or_gt e 971 with hsmall | hlarge
    · have hv : value y = .finite s m e hm := by
        rw [hy, hr]
        exact value_ofValue ⟨hlt, he, hsmall, hlong⟩
      obtain ⟨hbit, hlast⟩ := bits_of_finite hv
      refine ⟨fun _ => by rw [hbit, hsign], fun _ => hnearest ?_ ?_, fun hlarge => ?_⟩
      · rw [rational?_of_value hv, apply_eq_mul, mul_assoc, hvalue, ← mul_assoc, ← apply_eq_mul]
      · rw [hlast]
        exact heven
      · rw [habs, overflow_eq] at hlarge
        exact absurd (exponent_of_overflow hn hf hvalue hlt hlarge) hsmall.not_gt
    · have hv : value y = .infinity s := by
        rw [hy, hr]
        exact value_ofValue_overflow hlarge
      obtain ⟨hbit, htop⟩ := bits_of_infinity hv
      refine ⟨fun _ => by rw [hbit, hsign], fun hsmall => ?_, fun _ => htop⟩
      rw [habs, overflow_eq] at hsmall
      have hfirst := hlong.resolve_right (by omega)
      exact absurd (overflow_of_exponent hn hf hvalue hfirst hlarge) hsmall.not_ge

/-! ### Products -/

/-- The product of two mantissas has more digits than its target, so that it is cut off there. -/
theorem le_target_mul {hn : 0 < n} (hx : Canonical (.finite s m e hm))
    (hy : Canonical (.finite t n f hn)) : e + f ≤ target (m * n) (e + f) := by
  obtain ⟨-, -, -, hx⟩ := hx
  obtain ⟨-, -, -, hy⟩ := hy
  have hne : m * n ≠ 0 := Nat.mul_ne_zero hm.ne' hn.ne'
  have hlong (h : 2 ^ 52 ≤ m * n) : e + f ≤ target (m * n) (e + f) := by
    have hlog := (Nat.le_log2 hne).2 h
    unfold target
    omega
  rcases hx with hx | rfl
  · exact hlong (hx.trans (Nat.le_mul_of_pos_right m hn))
  · rcases hy with hy | rfl
    · exact hlong (hy.trans (Nat.le_mul_of_pos_left n hm))
    · unfold target
      omega

theorem apply_sign_mul (s t : Sign) (k : ℤ) : (s * t).apply k = s.apply (t.apply k) := by
  cases s with
  | positive => cases t <;> rfl
  | negative =>
    cases t with
    | positive => rfl
    | negative => exact (neg_neg k).symm

theorem apply_mul (s t : Sign) (m n : ℕ) :
    ((s.apply m : ℤ) : ℚ) * (t.apply n : ℤ) = ((s * t).apply (m * n : ℕ) : ℤ) := by
  rw [apply_sign_mul]
  cases s <;> cases t <;> simp [Sign.apply]

theorem rounds_zero (h : value y = .zero s) : Rounds 0 y where
  sign h := absurd rfl h
  nearest _ := by
    refine ⟨0, by rw [rational?_eq, h, unpackedRational?], fun z p' _ => ?_⟩
    rw [sub_self, abs_zero, zero_sub, abs_neg]
    exact ⟨abs_nonneg p', fun hzero => .inl (abs_eq_zero.1 hzero.symm)⟩
  overflow hlarge := by
    rw [abs_zero, overflow_eq] at hlarge
    have hpos := lastDigit_pos
    linarith

/-- **A product of doubles is what the product of their rationals rounds to.** -/
theorem rounds_mul (hx : rational? x = some p) (hy : rational? y = some q) :
    Rounds (p * q) (x * y) := by
  have hcx := canonical_value x
  have hcy := canonical_value y
  rw [Double.mul_def]
  rcases value_of_rational? hx with ⟨rfl, s, hvx⟩ | ⟨s, m, e, hm, hvx, rfl⟩
  · rw [zero_mul]
    rcases value_of_rational? hy with ⟨rfl, t, hvy⟩ | ⟨t, n, f, hn, hvy, rfl⟩ <;> rw [hvx, hvy]
    · exact rounds_zero (s := s * t) (value_ofValue trivial)
    · exact rounds_zero (s := s * t) (value_ofValue trivial)
  · rcases value_of_rational? hy with ⟨rfl, t, hvy⟩ | ⟨t, n, f, hn, hvy, rfl⟩
    · rw [mul_zero, hvx, hvy]
      exact rounds_zero (s := s * t) (value_ofValue trivial)
    · rw [hvx] at hcx ⊢
      rw [hvy] at hcy ⊢
      have hround := rounds_round (s * t) (Nat.mul_ne_zero hm.ne' hn.ne') (le_target_mul hcx hcy)
      rwa [← apply_mul, zpow_add₀ two_ne_zero, mul_mul_mul_comm] at hround

end StraightLine.Rounding
