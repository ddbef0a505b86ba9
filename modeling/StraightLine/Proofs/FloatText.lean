import StraightLine.Proofs.RoundedDecimals

/-!
# The text of a double

A text with digits, a point and an exponent writes a number (`Decimal.readNumber`), and the text of
a magnitude writes one that rounds to the double (`Decimal.holds_magnitude`), whether its digits
stand around a point or before an exponent. As no number rounds to two doubles, a double can be told
from its text (`floatText_injective`).
-/

namespace StraightLine.Decimal

/-! ### Reading a text -/

/-- The number that digits write which may have a point among them. -/
def readPlain (cs : List Char) : ℚ :=
  readDigits (cs.erase '.') / 10 ^ (cs.dropWhile (· ≠ '.')).tail.length

/-- The number that digits write which may have a minus sign before them. -/
def readExponent (cs : List Char) : ℤ :=
  if cs.head? = some '-' then -readDigits cs.tail else readDigits cs

/-- The number that a text writes, which may have an exponent at its end. -/
def readNumber (cs : List Char) : ℚ :=
  readPlain (cs.takeWhile (· ≠ 'e')) * 10 ^ readExponent (cs.dropWhile (· ≠ 'e')).tail

section Read

variable {c : Char} {cs ds es : List Char} {d : Digits}

theorem ne_of_mem (h : c ∉ cs) : ∀ a ∈ cs, decide (a ≠ c) = true := by
  intro a ha
  rw [decide_eq_true_eq]
  rintro rfl
  exact h ha

theorem readPlain_of_notMem (h : '.' ∉ ds) : readPlain ds = readDigits ds := by
  rw [readPlain, List.erase_of_not_mem h, List.dropWhile_eq_nil_iff.2 (ne_of_mem h)]
  simp

theorem readPlain_point (h : '.' ∉ ds) :
    readPlain (ds ++ '.' :: es) = readDigits (ds ++ es) / 10 ^ es.length := by
  rw [readPlain, List.erase_append_right _ h, List.dropWhile_append_of_pos (ne_of_mem h),
    List.erase_cons_head]
  simp

theorem readNumber_of_notMem (h : 'e' ∉ cs) : readNumber cs = readPlain cs := by
  rw [readNumber, List.takeWhile_eq_self_iff.2 (ne_of_mem h),
    List.dropWhile_eq_nil_iff.2 (ne_of_mem h)]
  simp [readExponent, readDigits]

theorem readNumber_exponent (h : 'e' ∉ cs) :
    readNumber (cs ++ 'e' :: es) = readPlain cs * 10 ^ readExponent es := by
  rw [readNumber, List.takeWhile_append_of_pos (ne_of_mem h),
    List.dropWhile_append_of_pos (ne_of_mem h)]
  simp

theorem readExponent_toDigits (n : Nat) : readExponent (Nat.toDigits 10 n) = n := by
  have hhead : (Nat.toDigits 10 n).head? ≠ some '-' := fun h =>
    absurd (Json.isDigit_of_mem_toDigits (List.mem_of_head? h)) (by decide)
  rw [readExponent, if_neg hhead, Json.readDigits_toDigits]

theorem readExponent_neg (n : Nat) : readExponent ('-' :: Nat.toDigits 10 n) = -n := by
  rw [readExponent, List.head?_cons, if_pos rfl, List.tail_cons, Json.readDigits_toDigits]

theorem isDigit_of_mem_zeros {n : Nat} (hc : c ∈ zeros n) : c.isDigit := by
  obtain rfl := List.eq_of_mem_replicate hc
  rfl

theorem ne_of_isDigit {a : Char} (ha : a.isDigit = true) (hc : c.isDigit = false) : a ≠ c := by
  rintro rfl
  rw [ha] at hc
  cases hc

theorem notMem_of_isDigit (h : ∀ a ∈ ds, a.isDigit) (hc : c.isDigit = false) : c ∉ ds :=
  fun hmem => ne_of_isDigit (h c hmem) hc rfl

/-- Digits around a point are a number of tenths, hundredths and so on. -/
theorem readNumber_point (hds : ∀ a ∈ ds, a.isDigit) (hes : ∀ a ∈ es, a.isDigit) :
    readNumber (ds ++ '.' :: es) = readDigits (ds ++ es) / 10 ^ es.length := by
  have he : 'e' ∉ ds ++ '.' :: es := by
    simp [notMem_of_isDigit hds (c := 'e') rfl, notMem_of_isDigit hes (c := 'e') rfl]
  rw [readNumber_of_notMem he, readPlain_point (notMem_of_isDigit hds rfl)]

/-- **The digits around a point read as the decimal.** -/
theorem readNumber_positional (h : ∀ a ∈ d.digits, a.isDigit) :
    readNumber d.positional = d.value := by
  simp only [Digits.positional]
  split_ifs with hneg hempty
  · -- All digits stand behind the point, after zeros.
    obtain ⟨k, hk⟩ : ∃ k : Nat, d.exponent + 1 = -k := ⟨(-d.exponent).toNat - 1, by omega⟩
    have hzeros : (-d.exponent).toNat - 1 = k := by omega
    have hfraction : ∀ a ∈ zeros k ++ d.digits, a.isDigit := fun a ha =>
      (List.mem_append.1 ha).elim isDigit_of_mem_zeros (h a)
    have hread : readNumber (zeros 1 ++ '.' :: (zeros k ++ d.digits)) = _ :=
      readNumber_point (fun _ => isDigit_of_mem_zeros) hfraction
    rw [readDigits_zeros_append, readDigits_zeros_append, List.length_append, length_zeros] at hread
    rw [hzeros, Digits.value, hk, sub_eq_add_neg, ← neg_add, zpow_neg, ← Nat.cast_add, zpow_natCast,
      ← div_eq_mul_inv]
    exact hread
  · -- All digits stand before the point, and zeros after them.
    have hlen : d.digits.length ≤ d.exponent.toNat + 1 := by
      rwa [List.isEmpty_iff, List.drop_eq_nil_iff] at hempty
    obtain ⟨k, hzeros⟩ : ∃ k, d.exponent.toNat + 1 - d.digits.length = k := ⟨_, rfl⟩
    have hk : d.exponent + 1 - d.digits.length = k := by omega
    have hwhole : ∀ a ∈ d.digits ++ zeros k, a.isDigit := fun a ha =>
      (List.mem_append.1 ha).elim (h a) isDigit_of_mem_zeros
    have hread : readNumber (d.digits ++ zeros k ++ '.' :: zeros 1) = _ :=
      readNumber_point hwhole fun _ => isDigit_of_mem_zeros
    rw [readDigits_append_zeros, readDigits_append_zeros, length_zeros] at hread
    rw [List.take_of_length_le hlen, hzeros, Digits.value, hk, zpow_natCast]
    refine hread.trans ?_
    push_cast
    field_simp
  · -- The point stands among the digits.
    have hlen : d.exponent.toNat + 1 < d.digits.length := by
      rwa [List.isEmpty_iff, List.drop_eq_nil_iff, not_le] at hempty
    have hread : readNumber (d.digits.take (d.exponent.toNat + 1) ++
        '.' :: d.digits.drop (d.exponent.toNat + 1)) = _ :=
      readNumber_point (fun a ha => h a (List.mem_of_mem_take ha))
        fun a ha => h a (List.mem_of_mem_drop ha)
    obtain ⟨k, hk⟩ : ∃ k : Nat, d.digits.length - (d.exponent.toNat + 1) = k := ⟨_, rfl⟩
    have hexponent : d.exponent + 1 - d.digits.length = -k := by omega
    rw [List.take_append_drop, List.length_drop, hk] at hread
    rw [Nat.sub_eq_zero_of_le hlen.le, Digits.value, hexponent, zpow_neg, zpow_natCast,
      ← div_eq_mul_inv, ← hread]
    simp [zeros]

/-- What an exponent is written with says how often to multiply by ten. -/
theorem readNumber_append_exponent (h : 'e' ∉ cs) (e : Int) :
    readNumber (cs ++ (if e < 0 then 'e' :: '-' :: Nat.toDigits 10 e.natAbs
      else "e".toList ++ Nat.toDigits 10 e.natAbs)) = readPlain cs * 10 ^ e := by
  split_ifs with hneg
  · have hexponent : e = -e.natAbs := by omega
    rw [readNumber_exponent h, readExponent_neg, ← hexponent]
  · have hmark : "e".toList = ['e'] := rfl
    have hexponent : e = e.natAbs := by omega
    rw [hmark, List.singleton_append, readNumber_exponent h, readExponent_toDigits, ← hexponent]

/-- **The digits with an exponent read as the decimal.** -/
theorem readNumber_scientific (h : ∀ a ∈ d.digits, a.isDigit) :
    readNumber (d.scientific "e") = d.value := by
  have he : 'e' ∉ d.digits := notMem_of_isDigit h rfl
  have hpoint : '.' ∉ d.digits := notMem_of_isDigit h rfl
  simp only [Digits.scientific, Digits.value]
  cases hd : d.digits with
  | nil =>
    rw [readNumber_append_exponent (by simp)]
    simp [readPlain, readDigits]
  | cons c rest =>
    rw [hd] at he hpoint
    cases rest with
    | nil =>
      simp only
      rw [readNumber_append_exponent he, readPlain_of_notMem hpoint]
      simp
    | cons c' rest =>
      simp only
      have hread : readPlain ([c] ++ '.' :: c' :: rest) = _ := readPlain_point (by grind)
      have hplaces : d.exponent + 1 - (c :: c' :: rest).length =
          d.exponent - (c' :: rest).length := by
        simp only [List.length_cons]
        omega
      rw [List.singleton_append, List.singleton_append] at hread
      rw [readNumber_append_exponent (by grind), hread, hplaces, zpow_sub₀ (by norm_num),
        zpow_natCast]
      ring

end Read

/-! ### The text of a magnitude -/

section Magnitude

variable {l : Layout} {d : Digits} {x y : Float}

/-- The bits of a double without its sign. -/
def magnitudeBits (x : Float) : UInt64 := x.toBits &&& 0x7FFFFFFFFFFFFFFF

theorem toNat_magnitudeBits (x : Float) : (magnitudeBits x).toNat = x.toBits.toNat % 2 ^ 63 := by
  rw [magnitudeBits, UInt64.toNat_and]
  show x.toBits.toNat &&& (2 ^ 63 - 1) = _
  rw [Nat.and_two_pow_sub_one_eq_mod]

theorem magnitudeBits_lt (x : Float) : (magnitudeBits x).toNat < 2 ^ 63 := by
  rw [toNat_magnitudeBits]
  omega

theorem isNegative_iff : isNegative x = true ↔ x.toBits.toNat / 2 ^ 63 = 1 := by
  rw [isNegative, decide_eq_true_eq, ← UInt64.toNat_inj, UInt64.toNat_shiftRight]
  show x.toBits.toNat >>> 63 = 1 ↔ _
  rw [Nat.shiftRight_eq_div_pow]

theorem Layout.magnitude_eq (l : Layout) (x : Float) :
    l.magnitude x = if magnitudeBits x = 0 then "0.0".toList
      else l.digits ((Interval.ofBits (magnitudeBits x)).shortest l.tie) := rfl

/-- A double is its sign and its magnitude. -/
theorem eq_of_magnitudeBits (hsign : isNegative x = isNegative y)
    (hbits : magnitudeBits x = magnitudeBits y) : x = y := by
  have hx := x.toBits.toNat_lt
  have hy := y.toBits.toNat_lt
  have hmod := congrArg UInt64.toNat hbits
  rw [toNat_magnitudeBits, toNat_magnitudeBits] at hmod
  have hdiv : x.toBits.toNat / 2 ^ 63 = 1 ↔ y.toBits.toNat / 2 ^ 63 = 1 := by
    rw [← isNegative_iff, ← isNegative_iff, hsign]
  exact Float.toBits_inj.1 (UInt64.toNat_inj.1 (by omega))

theorem holds_zero : (Interval.ofBits 0).Holds 0 := by
  refine .inr ⟨rfl, .inl ?_⟩
  have hlow : (Interval.ofBits 0).low = 0 := rfl
  rw [hlow, Interval.units, Nat.cast_zero, zero_mul]

theorem readNumber_digits (hl : l.mark = "e") (h : ∀ c ∈ d.digits, c.isDigit) :
    readNumber (l.digits d) = d.value := by
  unfold Layout.digits
  split_ifs
  · exact readNumber_positional h
  · rw [hl]
    exact readNumber_scientific h

/-- **The magnitude of a double is written as a number that rounds to it.** -/
theorem holds_magnitude (hl : l.mark = "e") (x : Float) :
    (Interval.ofBits (magnitudeBits x)).Holds (readNumber (l.magnitude x)) := by
  rw [Layout.magnitude_eq]
  split_ifs with hzero
  · have hread : readNumber "0.0".toList = 0 := by
      show readNumber (zeros 1 ++ '.' :: zeros 1) = 0
      rw [readNumber_point (fun _ => isDigit_of_mem_zeros) fun _ => isDigit_of_mem_zeros,
        readDigits_zeros_append, readDigits_zeros, Nat.cast_zero, zero_div]
    rw [hread, hzero]
    exact holds_zero
  · rw [readNumber_digits hl fun _ => Json.mem_digits_shortest]
    exact holds_shortest_ofBits (magnitudeBits_lt x) l.tie

theorem magnitudeBits_eq (hl : l.mark = "e") (h : l.magnitude x = l.magnitude y) :
    magnitudeBits x = magnitudeBits y := by
  have hx := holds_magnitude hl x
  rw [h] at hx
  exact eq_of_holds (magnitudeBits_lt x) (magnitudeBits_lt y) hx (holds_magnitude hl y)

theorem head?_positional (h : ∀ c ∈ d.digits, c.isDigit) :
    ∃ c ∈ d.positional.head?, c.isDigit := by
  simp only [Digits.positional]
  split_ifs
  · exact ⟨'0', rfl, rfl⟩
  all_goals
    cases hd : d.digits with
    | nil => exact ⟨'0', rfl, rfl⟩
    | cons c cs => exact ⟨c, rfl, h c (hd ▸ List.mem_cons_self)⟩

theorem head?_scientific (h : ∀ c ∈ d.digits, c.isDigit) (hne : d.digits ≠ []) (mark : String) :
    ∃ c ∈ (d.scientific mark).head?, c.isDigit := by
  obtain ⟨c, ds, hd⟩ := List.exists_cons_of_ne_nil hne
  refine ⟨c, ?_, h c (hd ▸ List.mem_cons_self)⟩
  cases ds <;> simp [Digits.scientific, hd]

/-- Only zero is written without digits. -/
theorem digits_shortest_ne_nil (hx : magnitudeBits x ≠ 0) (tie : Tie) :
    ((Interval.ofBits (magnitudeBits x)).shortest tie).digits ≠ [] := by
  intro hnil
  have hholds := holds_shortest_ofBits (magnitudeBits_lt x) tie
  have hvalue : ((Interval.ofBits (magnitudeBits x)).shortest tie).value = 0 := by
    simp [Digits.value, hnil, readDigits]
  rw [hvalue] at hholds
  exact hx (eq_of_holds (magnitudeBits_lt x) (by decide) hholds holds_zero)

/-- A magnitude is written with a digit in front. -/
theorem head?_magnitude (l : Layout) (x : Float) :
    ∃ c ∈ (l.magnitude x).head?, c.isDigit := by
  rw [Layout.magnitude_eq]
  split_ifs with hzero
  · exact ⟨'0', rfl, rfl⟩
  · unfold Layout.digits
    split_ifs
    · exact head?_positional fun _ => Json.mem_digits_shortest
    · exact head?_scientific (fun _ => Json.mem_digits_shortest) (digits_shortest_ne_nil hzero _) _

end Magnitude

end StraightLine.Decimal

namespace StraightLine

open Decimal (isNegative)

/-! ### The text of a double -/

section FloatText

variable {x y : Float}

theorem isNaN_iff : x.isNaN = true ↔ x = Float.nan := by
  rw [Float.isNaN_eq_decide_eq_nan, decide_eq_true_eq]

/-- What is not a number is written without a sign. -/
theorem isNegative_nan : isNegative Float.nan = false := by decide +kernel

theorem isInf_nan : Float.nan.isInf = false := by decide +kernel

theorem eq_ofValue_of_isInf (h : x.isInf = true) : ∃ s, x = Double.ofValue (.infinity s) := by
  have hvalue : (Double.value x).isInf = true := h
  cases hx : Double.value x with
  | infinity s => exact ⟨s, by rw [← hx, Double.ofValue_value]⟩
  | _ => rw [hx] at hvalue; cases hvalue

/-- There is one infinity of each sign. -/
theorem eq_of_isInf (hx : x.isInf = true) (hy : y.isInf = true)
    (hsign : isNegative x = isNegative y) : x = y := by
  obtain ⟨s, rfl⟩ := eq_ofValue_of_isInf hx
  obtain ⟨t, rfl⟩ := eq_ofValue_of_isInf hy
  revert hsign
  cases s <;> cases t <;> decide +kernel

/-- The text of a double without its sign. -/
def floatWord (x : Float) : List Char :=
  if x.isNaN then "NaN".toList else if x.isInf then "inf".toList else floatLayout.magnitude x

theorem toList_floatText (x : Float) :
    (floatText x).toList = if isNegative x then '-' :: floatWord x else floatWord x := by
  unfold floatText Decimal.Layout.render floatWord
  split_ifs with hnan hneg hinf
  · rw [isNaN_iff.1 hnan, isNegative_nan] at hneg
    cases hneg
  · rfl
  · rfl
  · rfl
  · rw [String.toList_ofList]
  · rw [String.toList_ofList]

/-- The first character tells which kind of double is written. -/
theorem head?_floatWord (x : Float) :
    ∃ c ∈ (floatWord x).head?, (x.isNaN = true ↔ c = 'N') ∧ (x.isInf = true ↔ c = 'i') ∧
      (c = 'N' ∨ c = 'i' ∨ c.isDigit = true) := by
  unfold floatWord
  split_ifs with hnan hinf
  · have hinf : x.isInf = false := by rw [isNaN_iff.1 hnan, isInf_nan]
    exact ⟨'N', rfl, by simp [-Float.isNaN_eq_decide_eq_nan, hnan, hinf]⟩
  · exact ⟨'i', rfl, by simp [-Float.isNaN_eq_decide_eq_nan, hnan, hinf]⟩
  · obtain ⟨c, hc, hdigit⟩ := Decimal.head?_magnitude floatLayout x
    have hne {a : Char} (ha : a.isDigit = false) : c ≠ a := Decimal.ne_of_isDigit hdigit ha
    exact ⟨c, hc, iff_of_false hnan (hne rfl), iff_of_false hinf (hne rfl), .inr (.inr hdigit)⟩

theorem head?_floatWord_ne_minus (x : Float) : (floatWord x).head? ≠ some '-' := by
  obtain ⟨c, hc, -, -, hkind⟩ := head?_floatWord x
  rw [Option.mem_def.1 hc]
  rintro ⟨⟩
  revert hkind
  decide

/-- The text of a double begins with a digit, a minus sign or the first letter of a word. -/
theorem head?_floatText (x : Float) :
    ∃ c ∈ (floatText x).toList.head?, c = '-' ∨ c = 'N' ∨ c = 'i' ∨ c.isDigit = true := by
  rw [toList_floatText]
  split_ifs
  · exact ⟨'-', rfl, .inl rfl⟩
  · obtain ⟨c, hc, -, -, hkind⟩ := head?_floatWord x
    exact ⟨c, hc, .inr hkind⟩

/-- A sign can be told from what follows it. -/
theorem sign_inj {s t : Bool} {cs ds : List Char} (hcs : cs.head? ≠ some '-')
    (hds : ds.head? ≠ some '-')
    (h : (if s then '-' :: cs else cs) = if t then '-' :: ds else ds) : s = t ∧ cs = ds := by
  cases s <;> cases t
  · exact ⟨rfl, h⟩
  · exact absurd (congrArg List.head? h) hcs
  · exact absurd (congrArg List.head? h).symm hds
  · exact ⟨rfl, List.tail_eq_of_cons_eq h⟩

/-- **A double can be told from its text.** -/
theorem floatText_injective : Function.Injective floatText := by
  intro x y h
  have htext := congrArg String.toList h
  rw [toList_floatText, toList_floatText] at htext
  obtain ⟨hsign, hword⟩ := sign_inj (head?_floatWord_ne_minus x) (head?_floatWord_ne_minus y) htext
  obtain ⟨c, hc, hnan, hinf, -⟩ := head?_floatWord x
  obtain ⟨c', hc', hnan', hinf', -⟩ := head?_floatWord y
  obtain rfl : c = c' := Option.mem_unique hc (hword ▸ hc')
  by_cases hN : c = 'N'
  · rw [isNaN_iff.1 (hnan.2 hN), isNaN_iff.1 (hnan'.2 hN)]
  by_cases hi : c = 'i'
  · exact eq_of_isInf (hinf.2 hi) (hinf'.2 hi) hsign
  · have hmagnitude : floatLayout.magnitude x = floatLayout.magnitude y := by
      rwa [floatWord, floatWord, if_neg (mt hnan.1 hN), if_neg (mt hnan'.1 hN),
        if_neg (mt hinf.1 hi), if_neg (mt hinf'.1 hi)] at hword
    exact Decimal.eq_of_magnitudeBits hsign (Decimal.magnitudeBits_eq rfl hmagnitude)

end FloatText

end StraightLine
