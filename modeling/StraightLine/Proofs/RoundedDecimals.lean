import Mathlib
import StraightLine.Proofs.Doubles
import StraightLine.Proofs.JsonScan

/-!
# Decimals that round to a double

The shortest decimal of a double is found with natural numbers only. Here it is a rational
(`Digits.value`), and so are the ends of the interval that it is looked for in: the test of a
decimal is membership in that interval (`contains_iff`), and what is found passes it
(`holds_shortest`).

The intervals of the doubles follow each other. Where one ends the next begins
(`Bits.lowEnd_succ`), and their common end belongs to the one of the two with the even mantissa. So
no number rounds to two doubles (`eq_of_holds`).
-/

namespace StraightLine.Decimal

/-! ### Numbers and intervals -/

/-- The number that a decimal stands for. -/
def Digits.value (d : Digits) : ℚ :=
  readDigits d.digits * 10 ^ (d.exponent + 1 - d.digits.length)

/-- A number of units. -/
def Interval.units (x : Interval) (n : Nat) : ℚ := n * 2 ^ x.unit

/-- A number that rounds to the double: one between the ends of the interval, or at an end that
rounds to it as well. -/
def Interval.Holds (x : Interval) (q : ℚ) : Prop :=
  (x.units x.low < q ∧ q < x.units x.high) ∨
    (x.closed = true ∧ (x.units x.low = q ∨ q = x.units x.high))

theorem zpow_eq_div {a : ℚ} (ha : a ≠ 0) (z : ℤ) : a ^ z = a ^ z.toNat / a ^ (-z).toNat := by
  rw [eq_div_iff (pow_ne_zero _ ha), ← zpow_natCast, ← zpow_natCast, ← zpow_add₀ ha]
  congr 1
  omega

variable {x : Interval}

/-- The test of a decimal brings both sides to a common denominator. -/
theorem contains_iff {n : Nat} {grid : Int} :
    x.contains n grid = true ↔ x.Holds (n * 10 ^ grid) := by
  obtain ⟨K, hK⟩ : ∃ K : ℚ, K = 2 ^ (-x.unit).toNat * 10 ^ (-grid).toNat := ⟨_, rfl⟩
  have hpos : 0 < K := by rw [hK]; positivity
  have hunits (m : Nat) : x.units m * K = x.numerator m grid := by
    rw [Interval.units, Interval.numerator, zpow_eq_div two_ne_zero, hK]
    push_cast [Nat.pow_eq]
    field_simp
  have hgrid : n * 10 ^ grid * K = (n * x.denominator grid : Nat) := by
    rw [Interval.denominator, zpow_eq_div (by norm_num), hK]
    push_cast [Nat.pow_eq]
    field_simp
  have hlt (m : Nat) : x.units m < n * 10 ^ grid ↔ x.numerator m grid < n * x.denominator grid := by
    rw [← mul_lt_mul_iff_left₀ hpos, hunits, hgrid, Nat.cast_lt]
  have hgt (m : Nat) : n * 10 ^ grid < x.units m ↔ n * x.denominator grid < x.numerator m grid := by
    rw [← mul_lt_mul_iff_left₀ hpos, hunits, hgrid, Nat.cast_lt]
  have heq (m : Nat) : x.units m = n * 10 ^ grid ↔ x.numerator m grid = n * x.denominator grid := by
    rw [← mul_left_inj' hpos.ne', hunits, hgrid, Nat.cast_inj]
  rw [Interval.Holds, hlt, hgt, heq, eq_comm (a := (n * 10 ^ grid : ℚ)), heq]
  simp only [Interval.contains, Bool.or_eq_true, Bool.and_eq_true, decide_eq_true_eq,
    eq_comm (a := n * x.denominator grid)]

theorem contains_of_onGrid {tie : Tie} {grid : Int} {n : Nat} (h : x.onGrid tie grid = some n) :
    x.contains n grid = true := by
  simp only [Interval.onGrid] at h
  grind

/-! ### Digits -/

theorem readDigits_append (ds es : List Char) :
    readDigits (ds ++ es) = readDigits ds * 10 ^ es.length + readDigits es := by
  induction es using List.reverseRecOn with
  | nil => simp [readDigits]
  | append_singleton es c ih =>
    have hstep (ds : List Char) : readDigits (ds ++ [c]) = readDigits ds * 10 + digitValue c := by
      simp [readDigits]
    rw [← List.append_assoc, hstep, hstep, ih, List.length_append, List.length_singleton, pow_succ]
    ring

theorem readDigits_zeros (n : Nat) : readDigits (zeros n) = 0 := by
  induction n with
  | zero => rfl
  | succ n ih =>
    have hone : readDigits ['0'] = 0 := rfl
    rw [zeros, List.replicate_succ', readDigits_append, ← zeros, ih, hone]
    simp

@[simp] theorem length_zeros (n : Nat) : (zeros n).length = n := List.length_replicate

theorem readDigits_append_zeros (ds : List Char) (n : Nat) :
    readDigits (ds ++ zeros n) = readDigits ds * 10 ^ n := by
  rw [readDigits_append, readDigits_zeros, length_zeros, Nat.add_zero]

theorem readDigits_zeros_append (n : Nat) (ds : List Char) :
    readDigits (zeros n ++ ds) = readDigits ds := by
  rw [readDigits_append, readDigits_zeros, Nat.zero_mul, Nat.zero_add]

/-- Digits without the zeros at their end, and these zeros. -/
theorem exists_eq_append_zeros (ds : List Char) :
    ∃ n, ds = (ds.reverse.dropWhile (· = '0')).reverse ++ zeros n := by
  refine ⟨(ds.reverse.takeWhile (· = '0')).length, ?_⟩
  have hzeros : (ds.reverse.takeWhile (· = '0')).reverse =
      zeros (ds.reverse.takeWhile (· = '0')).length := by
    rw [zeros, List.eq_replicate_iff]
    refine ⟨List.length_reverse, fun c hc => ?_⟩
    simpa using List.mem_takeWhile_imp (List.mem_reverse.1 hc)
  rw [← hzeros, ← List.reverse_append, List.takeWhile_append_dropWhile, List.reverse_reverse]

theorem value_ofNat (n : Nat) (grid : Int) : (Digits.ofNat n grid).value = n * 10 ^ grid := by
  obtain ⟨k, hk⟩ := exists_eq_append_zeros (Nat.toDigits 10 n)
  have hread := Json.readDigits_toDigits n
  have hlength := congrArg List.length hk
  rw [List.length_append, length_zeros] at hlength
  rw [hk, readDigits_append_zeros] at hread
  have hexponent : grid + (Nat.toDigits 10 n).length - 1 + 1 -
      ((Nat.toDigits 10 n).reverse.dropWhile (· = '0')).reverse.length = k + grid := by omega
  simp only [Digits.value, Digits.ofNat]
  rw [hexponent, zpow_add₀ (by norm_num), zpow_natCast, ← mul_assoc]
  conv_rhs => rw [← hread]
  push_cast
  rfl

/-- The double itself, as a decimal. -/
theorem value_exact (x : Interval) : x.exact.value = x.units x.value := by
  rw [Interval.exact, value_ofNat, Interval.units]
  push_cast [Nat.pow_eq]
  rcases le_total 0 x.unit with h | h
  · obtain ⟨u, hu⟩ := Int.eq_ofNat_of_zero_le h
    simp [hu]
  · obtain ⟨u, hu⟩ : ∃ u : Nat, x.unit = -u := ⟨x.unit.natAbs, by omega⟩
    have hten : (10 : ℚ) = 2 * 5 := by norm_num
    simp only [hu, min_eq_left (show -(u : ℤ) ≤ 0 by omega), neg_neg, Int.toNat_natCast,
      Int.toNat_neg_natCast, pow_zero, mul_one, zpow_neg, zpow_natCast, hten, mul_pow]
    field_simp

/-- **The shortest decimal rounds to the double.** -/
theorem holds_shortest (h : x.low < x.value ∧ x.value < x.high ∨ x.value = x.low ∧ x.closed = true)
    (tie : Tie) : x.Holds (x.shortest tie).value := by
  have hexact : x.Holds x.exact.value := by
    rw [value_exact]
    have hlt {m n : Nat} (hmn : m < n) : x.units m < x.units n := by
      have hpos : (0 : ℚ) < 2 ^ x.unit := by positivity
      exact mul_lt_mul_of_pos_right (Nat.cast_lt.2 hmn) hpos
    rcases h with ⟨hlow, hhigh⟩ | ⟨hlow, hclosed⟩
    · exact .inl ⟨hlt hlow, hlt hhigh⟩
    · exact .inr ⟨hclosed, .inl (by rw [hlow])⟩
  simp only [Interval.shortest]
  generalize hfound : List.findSome? _ (List.range 17) = found
  cases found with
  | none => exact hexact
  | some d =>
    obtain ⟨n, -, hn⟩ := List.exists_of_findSome?_eq_some hfound
    obtain ⟨m, hm, rfl⟩ := Option.map_eq_some_iff.1 hn
    rw [Option.getD_some, value_ofNat]
    exact contains_iff.1 (contains_of_onGrid hm)

/-! ### Doubles -/

namespace Bits

/-- The mantissa of the double with some bits, the sign bit apart. -/
def mantissa (b : Nat) : Nat := if b / 2 ^ 52 = 0 then b % 2 ^ 52 else 2 ^ 52 + b % 2 ^ 52

/-- The exponent of the unit of the double with some bits. -/
def unit (b : Nat) : Int := (max (b / 2 ^ 52) 1 : Nat) - 1077

/-- The lower end of the double with some bits, in units. -/
def low (b : Nat) : Nat :=
  if b % 2 ^ 52 = 0 ∧ 1 < b / 2 ^ 52 then 4 * mantissa b - 1 else 4 * mantissa b - 2

/-- The lower end of the double with some bits. -/
def lowEnd (b : Nat) : ℚ := low b * 2 ^ unit b

/-- The upper end of the double with some bits. -/
def highEnd (b : Nat) : ℚ := (4 * mantissa b + 2 : Nat) * 2 ^ unit b

/-- **Where the numbers end that round to a double, those begin that round to the next.** -/
theorem lowEnd_succ (b : Nat) : lowEnd (b + 1) = highEnd b := by
  by_cases hlast : b % 2 ^ 52 + 1 = 2 ^ 52
  · have hdiv : (b + 1) / 2 ^ 52 = b / 2 ^ 52 + 1 := by omega
    have hmod : (b + 1) % 2 ^ 52 = 0 := by omega
    by_cases hzero : b / 2 ^ 52 = 0
    · -- The last double below the normal ones has the unit of the first of these.
      have hunit : unit (b + 1) = unit b := by
        rw [unit, unit, hdiv, hzero]
        rfl
      have hlow : low (b + 1) = 4 * mantissa b + 2 := by
        rw [low, mantissa, mantissa, hdiv, hmod]
        split_ifs <;> omega
      rw [lowEnd, highEnd, hunit, hlow]
    · have hunit : unit (b + 1) = unit b + 1 := by
        simp only [unit, hdiv]
        omega
      have hlow : 2 * low (b + 1) = 4 * mantissa b + 2 := by
        rw [low, mantissa, mantissa, hdiv, hmod]
        split_ifs <;> omega
      rw [lowEnd, highEnd, hunit, zpow_add₀ two_ne_zero, ← hlow]
      push_cast
      ring
  · have hdiv : (b + 1) / 2 ^ 52 = b / 2 ^ 52 := by omega
    have hmod : (b + 1) % 2 ^ 52 = b % 2 ^ 52 + 1 := by omega
    have hunit : unit (b + 1) = unit b := by simp only [unit, hdiv]
    have hlow : low (b + 1) = 4 * mantissa b + 2 := by
      rw [low, mantissa, mantissa, hdiv, hmod, if_neg (by omega)]
      split_ifs <;> omega
    rw [lowEnd, highEnd, hunit, hlow]

theorem low_le (b : Nat) : low b ≤ 4 * mantissa b := by
  unfold low
  split_ifs <;> omega

theorem lowEnd_strictMono : StrictMono lowEnd := by
  refine strictMono_nat_of_lt_succ fun b => ?_
  rw [lowEnd_succ]
  have hlow := low_le b
  have hpos : (0 : ℚ) < 2 ^ unit b := by positivity
  exact mul_lt_mul_of_pos_right (Nat.cast_lt.2 (by omega)) hpos

/-- Every other double has an even mantissa. -/
theorem mantissa_mod_two (b : Nat) : mantissa b % 2 = b % 2 := by
  unfold mantissa
  split_ifs <;> omega

end Bits

open Bits

/-- The interval of a double, by its bits as a number. -/
theorem ofBits_eq {b : UInt64} (hb : b.toNat < 2 ^ 63) :
    Interval.ofBits b =
      { low := low b.toNat, value := 4 * mantissa b.toNat, high := 4 * mantissa b.toNat + 2,
        unit := unit b.toNat, closed := mantissa b.toNat % 2 = 0 } := by
  have hexponent : ((b >>> 52) &&& 0x7FF).toNat = b.toNat / 2 ^ 52 := by
    rw [Double.toNat_exponentField]
    omega
  simp only [Interval.ofBits, hexponent, Double.toNat_mantissaField, low, mantissa, unit]
  norm_num

theorem holds_ofBits_iff {b : UInt64} (hb : b.toNat < 2 ^ 63) {q : ℚ} :
    (Interval.ofBits b).Holds q ↔ (lowEnd b.toNat < q ∧ q < highEnd b.toNat) ∨
      (b.toNat % 2 = 0 ∧ (lowEnd b.toNat = q ∨ q = highEnd b.toNat)) := by
  rw [ofBits_eq hb]
  simp only [Interval.Holds, Interval.units, decide_eq_true_eq, mantissa_mod_two, lowEnd, highEnd]

/-- What rounds to one double does not round to a greater one. -/
theorem not_lt_of_holds {b c : UInt64} (hb : b.toNat < 2 ^ 63) (hc : c.toNat < 2 ^ 63) {q : ℚ}
    (hbq : (Interval.ofBits b).Holds q) (hcq : (Interval.ofBits c).Holds q) :
    ¬b.toNat < c.toNat := by
  intro hlt
  have hle : highEnd b.toNat ≤ lowEnd c.toNat := by
    rw [← lowEnd_succ]
    exact lowEnd_strictMono.monotone hlt
  have hlow := lowEnd_strictMono (Nat.lt_succ_self b.toNat)
  have hhigh := lowEnd_strictMono (Nat.lt_succ_self c.toNat)
  rw [Nat.succ_eq_add_one, lowEnd_succ] at hlow hhigh
  rcases (holds_ofBits_iff hb).1 hbq with ⟨-, hq⟩ | ⟨hbeven, hq⟩
  · rcases (holds_ofBits_iff hc).1 hcq with ⟨hq', -⟩ | ⟨-, hq' | hq'⟩ <;> linarith
  · rcases (holds_ofBits_iff hc).1 hcq with ⟨hq', -⟩ | ⟨hceven, hq'⟩
    · rcases hq with hq | hq <;> linarith
    · -- Of two neighbours, only one takes the number in the middle between them.
      have hmiddle : lowEnd (b.toNat + 1) = lowEnd c.toNat := by
        rw [lowEnd_succ]
        rcases hq with hq | hq <;> rcases hq' with hq' | hq' <;> linarith
      have hnext := lowEnd_strictMono.injective hmiddle
      omega

/-- **No number rounds to two doubles.** -/
theorem eq_of_holds {b c : UInt64} (hb : b.toNat < 2 ^ 63) (hc : c.toNat < 2 ^ 63) {q : ℚ}
    (hbq : (Interval.ofBits b).Holds q) (hcq : (Interval.ofBits c).Holds q) : b = c := by
  have hbc := not_lt_of_holds hb hc hbq hcq
  have hcb := not_lt_of_holds hc hb hcq hbq
  exact UInt64.toNat_inj.1 (by omega)

theorem holds_shortest_ofBits {b : UInt64} (hb : b.toNat < 2 ^ 63) (tie : Tie) :
    (Interval.ofBits b).Holds ((Interval.ofBits b).shortest tie).value := by
  refine holds_shortest ?_ tie
  rw [ofBits_eq hb]
  simp only [decide_eq_true_eq]
  rcases Nat.eq_zero_or_pos (mantissa b.toNat) with hzero | hpos
  · exact .inr (by simp [low, hzero])
  · refine .inl ⟨?_, by omega⟩
    unfold low
    split_ifs <;> omega

end StraightLine.Decimal
