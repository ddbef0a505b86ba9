import StraightLine.Proofs.FloatText

/-!
# The text of types and operands

Nothing stands between the parts of a type but what they are written with, and a string constant may
hold any bytes at all. Still a type, and an operand, can be told from its text
(`text_unambiguous`): the last character of a type and the first one of an operand say of which kind
it is, the size of a row ends at the first blank, and every byte is written so that its end can be
seen.
-/

namespace StraightLine

/-! ### Digits -/

/-- Digits end where a blank begins. -/
theorem digits_append_inj {ds es r s : List Char} (hds : ∀ c ∈ ds, c.isDigit)
    (hes : ∀ c ∈ es, c.isDigit) (h : ds ++ ' ' :: r = es ++ ' ' :: s) : ds = es ∧ r = s := by
  have htake := congrArg (List.takeWhile Char.isDigit) h
  rw [List.takeWhile_append_of_pos hds, List.takeWhile_append_of_pos hes,
    List.takeWhile_cons_of_neg (by decide), List.takeWhile_cons_of_neg (by decide),
    List.append_nil, List.append_nil] at htake
  subst htake
  exact ⟨rfl, by simpa using h⟩

theorem toDigits_injective : Function.Injective (Nat.toDigits 10) :=
  Function.LeftInverse.injective Json.readDigits_toDigits

/-! ### Types -/

namespace Ty

/-- The last character of the text of a type. -/
def lastChar : Ty → Char
  | double => 'e'
  | i1 => '1'
  | i8 => '8'
  | ptr _ => '*'
  | array _ _ => ']'

theorem toList_text_ptr (t : Ty) : (ptr t).text.toList = t.text.toList ++ ['*'] := by
  rw [text, String.toList_append]
  rfl

theorem toList_text_array (n : UInt64) (t : Ty) :
    (array n t).text.toList =
      '[' :: (Nat.toDigits 10 n.toNat ++ ' ' :: 'x' :: ' ' :: t.text.toList) ++ [']'] := by
  simp [text, Nat.toList_repr]

/-- The last character is the one that the outermost part is written with. -/
theorem getLast?_text (t : Ty) : t.text.toList.getLast? = some t.lastChar := by
  cases t with
  | double => rfl
  | i1 => rfl
  | i8 => rfl
  | ptr t => rw [toList_text_ptr, List.getLast?_concat]; rfl
  | array n t => rw [toList_text_array, List.getLast?_concat]; rfl

theorem lastChar_eq {a b : Ty} (h : a.text = b.text) : a.lastChar = b.lastChar := by
  rw [← Option.some_inj, ← getLast?_text, ← getLast?_text, h]

/-- **A type can be told from its text.** -/
theorem text_injective : Function.Injective text := by
  -- By induction on one of the types: the last character gives the other one the same form.
  intro a
  induction a with
  | ptr t ih =>
    intro b h
    have hlast := lastChar_eq h
    cases b with
    | ptr u =>
      have hlist := congrArg String.toList h
      rw [toList_text_ptr, toList_text_ptr, List.append_left_inj, String.toList_inj] at hlist
      rw [ih hlist]
    | _ => simp [lastChar] at hlast
  | array n t ih =>
    intro b h
    have hlast := lastChar_eq h
    cases b with
    | array m u =>
      have hlist := congrArg String.toList h
      rw [toList_text_array, toList_text_array, List.append_left_inj, List.cons_inj_right] at hlist
      obtain ⟨hsize, helement⟩ := digits_append_inj (fun _ => Json.isDigit_of_mem_toDigits)
        (fun _ => Json.isDigit_of_mem_toDigits) hlist
      rw [List.cons_inj_right, List.cons_inj_right, String.toList_inj] at helement
      rw [UInt64.toNat_inj.1 (toDigits_injective hsize), ih helement]
    | _ => simp [lastChar] at hlast
  | double | i1 | i8 =>
    intro b h
    have hlast := lastChar_eq h
    cases b <;> simp [lastChar] at hlast ⊢

end Ty

/-! ### Strings -/

section Bytes

variable {b c : UInt8} {r s : List Char}

theorem hexDigit_inj : ∀ m < 16, ∀ n < 16, hexDigit m = hexDigit n → m = n := by decide

theorem ofNat_ascii_inj {m n : Nat} (hm : m < 128) (hn : n < 128)
    (h : Char.ofNat m = Char.ofNat n) : m = n := by
  have hvalue {k : Nat} (hk : k < 128) : (Char.ofNat k).toNat = k := by
    rw [Char.toNat_ofNat, if_pos (.inl (by omega))]
  rw [← hvalue hm, ← hvalue hn, h]

/-- **The end of a byte can be seen.** -/
theorem byteText_append_inj (h : byteText b ++ r = byteText c ++ s) : b = c ∧ r = s := by
  have hb := b.toNat_lt
  have hc := c.toNat_lt
  simp only [byteText] at h
  split_ifs at h with hplain hplain'
  · obtain ⟨hchar, hrest⟩ := List.cons_eq_cons.1 h
    exact ⟨UInt8.toNat_inj.1 (ofNat_ascii_inj (by omega) (by omega) hchar), hrest⟩
  · -- A backslash is not written as itself.
    have hslash : b.toNat = 0x5C := ofNat_ascii_inj (by omega) (by decide) (List.cons_eq_cons.1 h).1
    omega
  · have hslash : 0x5C = c.toNat := ofNat_ascii_inj (by decide) (by omega) (List.cons_eq_cons.1 h).1
    omega
  · simp only [List.cons_append, List.nil_append, List.cons.injEq, true_and] at h
    obtain ⟨hhigh, hlow, hrest⟩ := h
    have hdiv := hexDigit_inj _ (by omega) _ (by omega) hhigh
    have hmod := hexDigit_inj _ (by omega) _ (by omega) hlow
    exact ⟨UInt8.toNat_inj.1 (by omega), hrest⟩

theorem byteText_ne_nil (b : UInt8) : byteText b ≠ [] := by
  simp only [byteText]
  split_ifs <;> simp

/-- **The bytes of a string constant can be told from its text.** -/
theorem flatMap_byteText_inj : ∀ {bs cs : List UInt8},
    bs.flatMap byteText = cs.flatMap byteText → bs = cs := by
  intro bs
  induction bs with
  | nil =>
    intro cs h
    cases cs with
    | nil => rfl
    | cons c cs =>
      rw [List.flatMap_nil, List.flatMap_cons] at h
      exact absurd (List.append_eq_nil_iff.1 h.symm).1 (byteText_ne_nil c)
  | cons b bs ih =>
    intro cs h
    cases cs with
    | nil =>
      rw [List.flatMap_nil, List.flatMap_cons] at h
      exact absurd (List.append_eq_nil_iff.1 h).1 (byteText_ne_nil b)
    | cons c cs =>
      rw [List.flatMap_cons, List.flatMap_cons] at h
      obtain ⟨rfl, hrest⟩ := byteText_append_inj h
      rw [ih hrest]

example : List.flatMap byteText [0x5C, 0x32, 0x32] = "\\5C22".toList := by decide

end Bytes

/-! ### Operands -/

namespace Operand

/-- The kinds of operands. -/
inductive Kind where
  | temp
  | float
  | bool
  | string
  | function
  | any
  deriving DecidableEq

/-- The kind of an operand. -/
def kind : Operand → Kind
  | temp _ => .temp
  | float _ => .float
  | bool _ => .bool
  | string _ => .string
  | function _ => .function
  | undef => .any

/-- The kind of the operands whose text begins with a character. -/
def kindOf (c : Char) : Kind :=
  if c = '%' then .temp
  else if c = 't' ∨ c = 'f' then .bool
  else if c = 'c' then .string
  else if c = '@' then .function
  else if c = 'u' then .any
  else .float

/-- The first character tells the kind. -/
theorem head?_text (v : Operand) : ∃ c ∈ v.text.toList.head?, kindOf c = v.kind := by
  cases v with
  | temp id => exact ⟨'%', by simp [text], rfl⟩
  | float x =>
    obtain ⟨c, hc, hkind⟩ := head?_floatText x.value
    refine ⟨c, hc, ?_⟩
    rcases hkind with rfl | rfl | rfl | hdigit
    · rfl
    · rfl
    · rfl
    · have hne (a : Char) (ha : a.isDigit = false) : c ≠ a := Decimal.ne_of_isDigit hdigit ha
      simp [kindOf, hne, kind]
  | bool b => cases b <;> exact ⟨_, rfl, rfl⟩
  | string bytes => exact ⟨'c', by simp [text], rfl⟩
  | function name => exact ⟨'@', by simp [text], rfl⟩
  | undef => exact ⟨'u', rfl, rfl⟩

theorem kind_eq {v w : Operand} (h : v.text = w.text) : v.kind = w.kind := by
  obtain ⟨c, hc, hv⟩ := head?_text v
  obtain ⟨c', hc', hw⟩ := head?_text w
  obtain rfl : c = c' := Option.mem_unique hc (h ▸ hc')
  rw [← hv, ← hw]

/-- Whether an operand is a constant that is not a number. -/
def isNaN : Operand → Bool
  | float c => c.value.isNaN
  | _ => false

/-- Constants that are not numbers are all written alike. -/
theorem text_of_isNaN {v : Operand} (h : v.isNaN = true) : v.text = "NaN" := by
  cases v with
  | float c =>
    have hnan : c.value.isNaN = true := h
    rw [text, floatText, Decimal.Layout.render, if_pos hnan, floatLayout]
  | _ => cases h

/-- **An operand can be told from its text**, unless it is a constant that is not a number. -/
theorem eq_of_text {v w : Operand} (h : v.text = w.text) :
    v = w ∨ v.isNaN = true ∧ w.isNaN = true := by
  have hkind := kind_eq h
  cases v with
  | temp id =>
    cases w with
    | temp id' =>
      have hlist := congrArg String.toList h
      simp only [text, String.toList_append, List.append_right_inj] at hlist
      have hdigits : Nat.toDigits 10 id = Nat.toDigits 10 id' := by
        simpa [Nat.toList_repr] using hlist
      exact .inl (by rw [toDigits_injective hdigits])
    | _ => cases hkind
  | float x =>
    cases w with
    | float y => simpa [isNaN] using Numeral.value_inj.1 (floatText_injective h)
    | _ => cases hkind
  | bool b =>
    cases w with
    | bool b' => cases b <;> cases b' <;> simp [text] at h ⊢
    | _ => cases hkind
  | string bytes =>
    cases w with
    | string bytes' =>
      have hlist := congrArg String.toList h
      simp only [text, String.toList_append, String.toList_ofList, List.append_left_inj,
        List.append_right_inj] at hlist
      exact .inl (by rw [flatMap_byteText_inj hlist])
    | _ => cases hkind
  | function name =>
    cases w with
    | function name' =>
      have hlist := congrArg String.toList h
      simp only [text, String.toList_append, List.append_right_inj, String.toList_inj] at hlist
      exact .inl (by rw [hlist])
    | _ => cases hkind
  | undef =>
    cases w with
    | undef => exact .inl rfl
    | _ => cases hkind

end Operand

/-- **The text of types and operands is unambiguous.** Types of any nesting with the same text are
the same, and so are operands, whatever the bytes of a string and the name of a function. The only
exception are the constants that are not numbers, which are written without their bits. -/
theorem text_unambiguous :
    Function.Injective Ty.text ∧
      ∀ v w : Operand, v.text = w.text ↔ v = w ∨ v.isNaN = true ∧ w.isNaN = true := by
  refine ⟨Ty.text_injective, fun v w => ⟨Operand.eq_of_text, ?_⟩⟩
  rintro (rfl | ⟨hv, hw⟩)
  · rfl
  · rw [Operand.text_of_isNaN hv, Operand.text_of_isNaN hw]

end StraightLine
