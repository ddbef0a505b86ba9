import StraightLine.Proofs.Rounding

/-!
# Exact reciprocals

The doubles with an exact reciprocal are the powers of two, with either sign, that are normal and
whose reciprocals are normal. Their mantissas have one bit (`value_of_isPower`), which the bits of a
double show, and the division of one by such a double only changes the exponent.
-/

namespace StraightLine.Strength

open Float.Model Float.Model.UnpackedFloat Rounding
open Double (value canonical_value value_of_exactReciprocal value_reciprocal)

/-! ### Powers of two -/

/-- A double is a power of two or the opposite of one. -/
def IsPower (x : Float) (k : ℤ) : Prop := rational? x = some (2 ^ k) ∨ rational? x = some (-2 ^ k)

variable {x c r : Float} {s : Sign} {e : ℤ} {hp : 0 < 2 ^ 52}

/-- A double with a mantissa of one bit is a power of two. -/
theorem isPower_of_value (h : value x = .finite s (2 ^ 52) e hp) : IsPower x (e + 52) := by
  have hpow : ((2 ^ 52 : ℕ) : ℚ) * 2 ^ e = 2 ^ (e + 52) := by
    rw [zpow_add₀ two_ne_zero, mul_comm]
    norm_num
  rw [IsPower, rational?_of_value h, ← hpow]
  cases s with
  | positive => exact .inl rfl
  | negative => exact .inr (by simp [Sign.apply])

section Exponents

variable {m j : ℕ} {k : ℤ}

theorem lt_of_mul_eq_two_zpow (h : (m * 2 ^ e : ℚ) = 2 ^ k) (hm : m < 2 ^ j) : k < e + j := by
  rw [← zpow_lt_zpow_iff_right₀ (one_lt_two (α := ℚ)), ← h, add_comm, zpow_add₀ two_ne_zero]
  gcongr
  exact_mod_cast hm

theorem le_of_mul_eq_two_zpow (h : (m * 2 ^ e : ℚ) = 2 ^ k) (hm : 2 ^ j ≤ m) : e + j ≤ k := by
  rw [← zpow_le_zpow_iff_right₀ (one_lt_two (α := ℚ)), ← h, add_comm, zpow_add₀ two_ne_zero]
  gcongr
  exact_mod_cast hm

/-- **A power of two that is normal has a mantissa of one bit.** -/
theorem value_of_isPower (h : IsPower x k) (hlo : -1022 ≤ k) :
    ∃ (s : Sign) (hp : 0 < 2 ^ 52), value x = .finite s (2 ^ 52) (k - 52) hp := by
  have hpos : (0 : ℚ) < 2 ^ k := by positivity
  obtain ⟨q, hq, habs⟩ : ∃ q, rational? x = some q ∧ |q| = 2 ^ k := by
    rcases h with h | h
    · exact ⟨_, h, abs_of_pos hpos⟩
    · exact ⟨_, h, by rw [abs_neg, abs_of_pos hpos]⟩
  obtain ⟨s, m, e, hm, hv, rfl⟩ := finite_of_rational? hq (abs_pos.1 (habs ▸ hpos))
  have hcanon := canonical_value x
  rw [hv] at hcanon
  obtain ⟨hlt, -, -, hcase⟩ := hcanon
  rw [abs_mul, abs_apply, abs_of_pos (show (0 : ℚ) < 2 ^ e by positivity)] at habs
  have htop := lt_of_mul_eq_two_zpow habs hlt
  have hlong : 2 ^ 52 ≤ m := by
    -- With a shorter mantissa the exponent would be the least, and the double not normal.
    by_contra hshort
    have hlow := lt_of_mul_eq_two_zpow habs (not_le.1 hshort)
    have hleast := hcase.resolve_left hshort
    omega
  have hbottom := le_of_mul_eq_two_zpow habs hlong
  obtain rfl : k = e + 52 := by omega
  have hmant : m = 2 ^ 52 := by
    rw [add_comm, zpow_add₀ two_ne_zero] at habs
    exact_mod_cast mul_right_cancel₀ (by positivity) habs
  subst hmant
  exact ⟨s, hm, by rw [hv, add_sub_cancel_right]⟩

end Exponents

/-! ### Reciprocals -/

/-- A double with a mantissa of one bit is normal, and no bit is set behind the first. -/
theorem isNormal_of_value (h : value c = .finite s (2 ^ 52) e hp) :
    isNormal c = true ∧ c.toBits &&& 0xFFFFFFFFFFFFF = 0 := by
  obtain ⟨t, ev, mv, hvalue, hbits⟩ := exists_fields c
  have hev := ev.isLt
  have hmv := mv.isLt
  rw [hvalue, Double.unpack_packComponents] at h
  split_ifs at h with htop hzero hleast hzero
  · -- Below the normal doubles all mantissas are shorter.
    have hmant := (UnpackedFloat.finite.inj h).2.1
    omega
  · have hmant := (UnpackedFloat.finite.inj h).2.1
    have hexponent : ((c.toBits >>> 52) &&& 0x7FF).toNat = ev.toNat := by
      rw [Double.toNat_exponentField]
      omega
    have hfield : (c.toBits &&& 0xFFFFFFFFFFFFF).toNat = 0 := by
      rw [Double.toNat_mantissaField]
      omega
    refine ⟨?_, UInt64.toNat_inj.1 hfield⟩
    simp only [isNormal, Bool.and_eq_true, decide_eq_true_eq]
    refine ⟨fun h => hleast ?_, fun h => htop ?_⟩
    · exact BitVec.eq_of_toNat_eq (hexponent.symm.trans (congrArg UInt64.toNat h))
    · exact BitVec.eq_of_toNat_eq (hexponent.symm.trans (congrArg UInt64.toNat h))

/-- The reciprocal of a normal power of two is exact if it is normal. -/
theorem exactReciprocal_of_value (h : value c = .finite s (2 ^ 52) e hp) (hlo : -1074 ≤ e)
    (hhi : e ≤ 970) : exactReciprocal c = some (1.0 / c) := by
  obtain ⟨hnormal, hfield⟩ := isNormal_of_value h
  have hreciprocal := (isNormal_of_value (value_reciprocal h hlo hhi)).1
  simp [exactReciprocal, hnormal, hfield, hreciprocal]

/-- A double with an exact reciprocal and its reciprocal have mantissas of one bit, and opposite
exponents. -/
theorem values_of_exactReciprocal (h : exactReciprocal c = some r) :
    ∃ (s : Sign) (e : ℤ) (hp : 0 < 2 ^ 52), value c = .finite s (2 ^ 52) e hp ∧
      value r = .finite s (2 ^ 52) (-104 - e) hp ∧ -1074 ≤ e ∧ e ≤ 970 := by
  obtain ⟨s, e, hp, hc, hr⟩ := value_of_exactReciprocal h
  have hcanonC := canonical_value c
  have hcanonR := canonical_value r
  rw [hc] at hcanonC
  rw [hr] at hcanonR
  obtain ⟨-, hlo, -⟩ := hcanonC
  obtain ⟨-, hhi, -⟩ := hcanonR
  exact ⟨s, e, hp, hc, hr, hlo, by omega⟩

theorem exists_exactReciprocal_iff :
    (∃ r, exactReciprocal c = some r) ↔ ∃ k : ℤ, -1022 ≤ k ∧ k ≤ 1022 ∧ IsPower c k := by
  constructor
  · rintro ⟨r, h⟩
    obtain ⟨s, e, hp, hc, -, hlo, hhi⟩ := values_of_exactReciprocal h
    exact ⟨e + 52, by omega, by omega, isPower_of_value hc⟩
  · rintro ⟨k, hlo, hhi, hk⟩
    obtain ⟨s, hp, hc⟩ := value_of_isPower hk hlo
    exact ⟨_, exactReciprocal_of_value hc (by omega) (by omega)⟩

/-- The reciprocal of the reciprocal is the double itself. -/
theorem exactReciprocal_symm (h : exactReciprocal c = some r) : exactReciprocal r = some c := by
  obtain ⟨s, e, hp, hc, hr, hlo, hhi⟩ := values_of_exactReciprocal h
  have hback : value (1.0 / r) = value c := by
    rw [value_reciprocal hr (by omega) (by omega), hc, sub_sub_cancel]
  rw [exactReciprocal_of_value hr (by omega) (by omega), ← Double.ofValue_value (1.0 / r), hback,
    Double.ofValue_value]

theorem rational?_of_exactReciprocal (h : exactReciprocal c = some r) :
    ∃ q, rational? c = some q ∧ rational? r = some (1 / q) := by
  obtain ⟨s, e, hp, hc, hr, -, -⟩ := values_of_exactReciprocal h
  refine ⟨_, rational?_of_value hc, ?_⟩
  rw [rational?_of_value hr, Option.some.injEq]
  have hmant : ((s.apply (2 ^ 52 : ℕ) : ℤ) : ℚ) * (s.apply (2 ^ 52 : ℕ) : ℤ) = 2 ^ (104 : ℤ) := by
    cases s <;> norm_num [Sign.apply]
  refine eq_one_div_of_mul_eq_one_left ?_
  rw [mul_mul_mul_comm, hmant, ← zpow_add₀ two_ne_zero, ← zpow_add₀ two_ne_zero]
  norm_num

/-- **Exact reciprocals are exact.** A double has one exactly if it is a power of two from
`2 ^ -1022` to `2 ^ 1022`, with either sign. It is the reciprocal of the rational that the double
stands for, and its own exact reciprocal is the double. Dividing any double by the one and
multiplying it by the other gives the same, and for a finite double this is what the one rational
rounds to that both the quotient and the product are. -/
theorem exactReciprocal_exact (c : Float) :
    ((∃ r, exactReciprocal c = some r) ↔ ∃ k : ℤ, -1022 ≤ k ∧ k ≤ 1022 ∧ IsPower c k) ∧
    ∀ r, exactReciprocal c = some r →
      exactReciprocal r = some c ∧ (∀ x, x / c = x * r) ∧
      ∃ q q', rational? c = some q ∧ rational? r = some q' ∧ q' = 1 / q ∧
        ∀ x p, rational? x = some p →
          p / q = p * q' ∧ Rounds (p / q) (x / c) ∧ Rounds (p * q') (x * r) := by
  refine ⟨exists_exactReciprocal_iff, fun r h => ⟨exactReciprocal_symm h,
    Double.div_eq_mul_of_exactReciprocal h, ?_⟩⟩
  obtain ⟨q, hq, hq'⟩ := rational?_of_exactReciprocal h
  refine ⟨q, 1 / q, hq, hq', rfl, fun x p hp => ?_⟩
  have hquotient : p / q = p * (1 / q) := by rw [mul_one_div]
  have hproduct := rounds_mul hp hq'
  exact ⟨hquotient, by rwa [hquotient, Double.div_eq_mul_of_exactReciprocal h], hproduct⟩

-- The ends: 2 ^ 1022 is the last with an exact reciprocal, and 2 ^ -1023 is not normal.
example :
    exactReciprocal (.ofBits 0x7FD0000000000000) = some (.ofBits 0x0010000000000000) ∧
      exactReciprocal (.ofBits 0x7FE0000000000000) = none ∧
      exactReciprocal (.ofBits 0x0008000000000000) = none := by
  decide +kernel

end StraightLine.Strength
