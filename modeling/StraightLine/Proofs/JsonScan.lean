import Mathlib
import StraightLine.Json.Parser
import StraightLine.Json.Printer

/-!
# Tokens that are written

What a document is made of is cut out of a text again as it was put there: numbers, strings and the
line breaks between them. A number has no end of its own, so what stands behind it must not be taken
for a part of it (`Stops`). That the digits of a double stand for the double is not shown here:
where they are read as a document at all, they are one number (`scanNumber_of_parse`).
-/

namespace StraightLine.Json

/-! ### Numbers -/

/-- What may follow a number: nothing, or a character that is no part of one. -/
def Stops (rest : List Char) : Prop :=
  ∀ c ∈ rest.head?, c.isDigit = false ∧ c ≠ '.' ∧ c ≠ 'e' ∧ c ≠ 'E'

/-- A scanner that leaves a part of the text over, and the same and more when the text goes on with
something that is no number. -/
structure Cuts {α : Type} (scan : List Char → Option (α × List Char)) : Prop where
  suffix : ∀ {cs a r}, scan cs = some (a, r) → r <:+ cs
  append : ∀ {cs a r rest}, Stops rest → scan cs = some (a, r) →
    scan (cs ++ rest) = some (a, r ++ rest)

theorem Cuts.map {α β : Type} {scan : List Char → Option (α × List Char)} (h : Cuts scan)
    (g : α → β) : Cuts fun cs => (scan cs).map fun p => (g p.1, p.2) where
  suffix hscan := by
    obtain ⟨p, hp, heq⟩ := Option.map_eq_some_iff.1 hscan
    cases heq
    exact h.suffix hp
  append hrest hscan := by
    obtain ⟨p, hp, heq⟩ := Option.map_eq_some_iff.1 hscan
    cases heq
    rw [h.append hrest hp]
    rfl

theorem spanDigits_eq (cs : List Char) :
    spanDigits cs = (cs.takeWhile Char.isDigit, cs.dropWhile Char.isDigit) :=
  List.span_eq_takeWhile_dropWhile _ cs

theorem spanDigits_append {rest : List Char} (hrest : Stops rest) (cs : List Char) :
    spanDigits (cs ++ rest) = ((spanDigits cs).1, (spanDigits cs).2 ++ rest) := by
  simp only [spanDigits_eq]
  induction cs with
  | nil =>
    cases rest with
    | nil => rfl
    | cons c rest =>
      have hc := (hrest c rfl).1
      simp [hc]
  | cons c cs ih =>
    obtain ⟨htake, hdrop⟩ := Prod.mk.inj ih
    cases hc : c.isDigit <;> simp [hc, htake, hdrop]

theorem suffix_spanDigits (cs : List Char) : (spanDigits cs).2 <:+ cs := by
  rw [spanDigits_eq]
  exact List.dropWhile_suffix _

theorem cuts_scanWhole : Cuts scanWhole where
  suffix {cs ds r} h := by
    cases cs with
    | nil => cases h
    | cons c cs =>
      simp only [scanWhole] at h
      split_ifs at h
      · cases h
        exact List.suffix_cons ..
      · cases h
        exact (suffix_spanDigits cs).trans (List.suffix_cons ..)
  append {cs ds r rest} hrest h := by
    cases cs with
    | nil => cases h
    | cons c cs =>
      simp only [scanWhole, List.cons_append, spanDigits_append hrest] at h ⊢
      split_ifs at h ⊢ <;> cases h <;> rfl

theorem cuts_scanFraction : Cuts scanFraction where
  suffix {cs ds r} h := by
    unfold scanFraction at h
    split at h
    next cs =>
      dsimp only at h
      split_ifs at h
      cases h
      exact (suffix_spanDigits cs).trans (List.suffix_cons ..)
    next =>
      cases h
      exact List.suffix_refl _
  append {cs ds r rest} hrest h := by
    unfold scanFraction at h
    split at h
    next cs =>
      simp only [scanFraction, List.cons_append, spanDigits_append hrest] at h ⊢
      split_ifs at h ⊢
      cases h
      rfl
    next hpoint =>
      cases h
      unfold scanFraction
      split
      next rest' heq =>
        cases cs with
        | nil =>
          obtain rfl : rest = '.' :: rest' := heq
          exact absurd rfl (hrest '.' rfl).2.1
        | cons c cs =>
          cases heq
          exact absurd rfl (hpoint cs)
      next => rfl

theorem cuts_scanPower : Cuts scanPower where
  suffix {cs n r} h := by
    simp only [scanPower] at h
    split_ifs at h
    cases h
    exact suffix_spanDigits cs
  append {cs n r rest} hrest h := by
    simp only [scanPower, spanDigits_append hrest] at h ⊢
    split_ifs at h ⊢
    cases h
    rfl

/-- The power of ten after the mark of an exponent. -/
def scanSigned : List Char → Option (Int × List Char)
  | '-' :: rest => (scanPower rest).map fun p => (-(p.1 : Int), p.2)
  | '+' :: rest => (scanPower rest).map fun p => ((p.1 : Int), p.2)
  | rest => (scanPower rest).map fun p => ((p.1 : Int), p.2)

theorem cuts_scanSigned : Cuts scanSigned where
  suffix {cs n r} h := by
    unfold scanSigned at h
    split at h
    · exact ((cuts_scanPower.map fun n => -(n : Int)).suffix h).trans (List.suffix_cons ..)
    · exact ((cuts_scanPower.map fun n => (n : Int)).suffix h).trans (List.suffix_cons ..)
    · exact (cuts_scanPower.map fun n => (n : Int)).suffix h
  append {cs n r rest} hrest h := by
    unfold scanSigned at h
    split at h
    next cs => exact (cuts_scanPower.map fun n => -(n : Int)).append hrest h
    next cs => exact (cuts_scanPower.map fun n => (n : Int)).append hrest h
    next hminus hplus =>
      cases cs with
      | nil => simp [scanPower, spanDigits_eq] at h
      | cons c cs =>
        have h' := (cuts_scanPower.map fun n => (n : Int)).append hrest h
        unfold scanSigned
        split
        next heq =>
          cases heq
          exact absurd rfl (hminus cs)
        next heq =>
          cases heq
          exact absurd rfl (hplus cs)
        next => exact h'

theorem scanExponent_cons (c : Char) (cs : List Char) :
    scanExponent (c :: cs) =
      if c = 'e' ∨ c = 'E' then (scanSigned cs).map fun p => (some p.1, p.2)
      else some (none, c :: cs) := by
  simp only [scanExponent]
  congr 1
  unfold scanSigned
  split <;> simp [Function.comp_def]

theorem cuts_scanExponent : Cuts scanExponent where
  suffix {cs e r} h := by
    cases cs with
    | nil =>
      cases h
      exact List.suffix_refl _
    | cons c cs =>
      rw [scanExponent_cons] at h
      split_ifs at h
      · exact ((cuts_scanSigned.map some).suffix h).trans (List.suffix_cons ..)
      · cases h
        exact List.suffix_refl _
  append {cs e r rest} hrest h := by
    cases cs with
    | nil =>
      cases h
      cases rest with
      | nil => rfl
      | cons c rest =>
        obtain ⟨_, _, he, hE⟩ := hrest c rfl
        simp [scanExponent, he, hE]
    | cons c cs =>
      rw [List.cons_append]
      rw [scanExponent_cons] at h ⊢
      split_ifs at h ⊢
      · exact (cuts_scanSigned.map some).append hrest h
      · cases h
        rfl

theorem scanMagnitude_eq_some {neg : Bool} {cs r : List Char} {j : Json} :
    scanMagnitude neg cs = some (j, r) ↔ ∃ whole cs₁, scanWhole cs = some (whole, cs₁) ∧
      ∃ fraction cs₂, scanFraction cs₁ = some (fraction, cs₂) ∧
      ∃ exponent, scanExponent cs₂ = some (exponent, r) ∧
        (⟨neg, whole, fraction, exponent⟩ : Literal).value = j := by
  simp [scanMagnitude, Option.bind_eq_some_iff, Prod.exists]

theorem cuts_scanMagnitude (neg : Bool) : Cuts (scanMagnitude neg) where
  suffix {cs j r} h := by
    obtain ⟨_, cs₁, hwhole, _, cs₂, hfraction, _, hexponent, _⟩ := scanMagnitude_eq_some.1 h
    exact (cuts_scanExponent.suffix hexponent).trans
      ((cuts_scanFraction.suffix hfraction).trans (cuts_scanWhole.suffix hwhole))
  append {cs j r rest} hrest h := by
    obtain ⟨_, cs₁, hwhole, _, cs₂, hfraction, _, hexponent, hj⟩ := scanMagnitude_eq_some.1 h
    exact scanMagnitude_eq_some.2 ⟨_, _, cuts_scanWhole.append hrest hwhole, _, _,
      cuts_scanFraction.append hrest hfraction, _, cuts_scanExponent.append hrest hexponent, hj⟩

theorem cuts_scanNumber : Cuts scanNumber where
  suffix {cs j r} h := by
    unfold scanNumber at h
    split at h
    · exact ((cuts_scanMagnitude true).suffix h).trans (List.suffix_cons ..)
    · exact (cuts_scanMagnitude false).suffix h
  append {cs j r rest} hrest h := by
    unfold scanNumber at h
    split at h
    next cs => exact (cuts_scanMagnitude true).append hrest h
    next hminus =>
      cases cs with
      | nil => cases h
      | cons c cs =>
        have h' := (cuts_scanMagnitude false).append hrest h
        unfold scanNumber
        split
        next heq =>
          cases heq
          exact absurd rfl (hminus cs)
        next => exact h'

/-! ### Tokens -/

/-- Characters are cut into tokens, by any fuel that is enough. -/
def Lexes (cs : List Char) (ts : List Token) : Prop :=
  ∀ fuel, cs.length ≤ fuel → tokensIn fuel cs = some ts

namespace Lexes

variable {cs rest : List Char} {ts : List Token}

theorem nil : Lexes [] [] := by
  intro fuel _
  cases fuel <;> rfl

theorem gap {c : Char} (hc : isGap c) (h : Lexes cs ts) : Lexes (c :: cs) ts := by
  intro fuel hfuel
  cases fuel with
  | zero => simp at hfuel
  | succ fuel =>
    rw [tokensIn, if_pos hc]
    exact h fuel (by simpa using hfuel)

/-- A token, and then the tokens of the rest. -/
theorem token {c : Char} (piece : List Char) {t : Token} (hc : isGap c = false)
    (hscan : scanToken (c :: (piece ++ rest)) = some (t, rest)) (h : Lexes rest ts) :
    Lexes (c :: (piece ++ rest)) (t :: ts) := by
  intro fuel hfuel
  cases fuel with
  | zero => simp at hfuel
  | succ fuel =>
    have hlength : rest.length ≤ fuel := by
      simp only [List.length_cons, List.length_append] at hfuel
      omega
    rw [tokensIn, hc, if_neg (by simp), hscan]
    simp [h fuel hlength]

theorem newline (depth : Nat) (h : Lexes cs ts) :
    Lexes ((Json.newline depth).toList ++ cs) ts := by
  have hblanks (n : Nat) : Lexes (List.replicate n ' ' ++ cs) ts := by
    induction n with
    | zero => exact h
    | succ n ih => exact ih.gap rfl
  simp only [Json.newline, String.toList_append, String.toList_ofList]
  exact (hblanks (2 * depth)).gap rfl

end Lexes

theorem tokens_of_lexes {s : String} {ts : List Token} (h : Lexes s.toList ts) :
    tokens s = some ts :=
  h _ (Nat.le_refl _)

/-- A character of a number that is written. -/
def isNumeric (c : Char) : Bool := c.isDigit || c = '-' || c = '+' || c = '.' || c = 'e'

/-- A text that starts like a number is scanned as one. -/
theorem scanToken_of_isNumeric {c : Char} (hc : isNumeric c) (cs : List Char) :
    scanToken (c :: cs) = (scanNumber (c :: cs)).map fun p => (.scalar p.1, p.2) := by
  rw [scanToken]
  -- No other token starts with such a character.
  all_goals
    intro rest heq
    cases heq
    cases hc

theorem isGap_of_isNumeric {c : Char} (hc : isNumeric c) : isGap c = false := by
  cases hgap : isGap c with
  | false => rfl
  | true =>
    simp only [isGap, Bool.or_eq_true, decide_eq_true_eq] at hgap
    rcases hgap with ((rfl | rfl) | rfl) | rfl <;> cases hc

/-- A number that is all of a text is a token, also when something follows that is no number. -/
theorem Lexes.number {cs rest : List Char} {ts : List Token} {j : Json}
    (hcs : ∀ c ∈ cs, isNumeric c) (hscan : scanNumber cs = some (j, [])) (hrest : Stops rest)
    (h : Lexes rest ts) : Lexes (cs ++ rest) (.scalar j :: ts) := by
  cases cs with
  | nil => cases hscan
  | cons c cs =>
    have hc : isNumeric c := hcs c List.mem_cons_self
    have hscan := cuts_scanNumber.append hrest hscan
    refine Lexes.token cs (isGap_of_isNumeric hc) ?_ h
    rw [scanToken_of_isNumeric hc, ← List.cons_append, hscan]
    rfl

theorem tokensIn_numeric {fuel : Nat} {c : Char} {cs : List Char} {ts : List Token}
    (hc : isNumeric c) (h : tokensIn fuel (c :: cs) = some ts) :
    ∃ j rest fuel' ts', scanNumber (c :: cs) = some (j, rest) ∧ tokensIn fuel' rest = some ts' ∧
      ts = .scalar j :: ts' := by
  cases fuel with
  | zero => cases h
  | succ fuel =>
    rw [tokensIn, isGap_of_isNumeric hc, if_neg (by simp), scanToken_of_isNumeric hc] at h
    simp only [Option.bind_eq_bind, Option.bind_eq_some_iff, Option.map_eq_some_iff, Prod.exists,
      Option.pure_def, Option.some.injEq] at h
    obtain ⟨t, rest, ⟨j, rest', hscan, heq⟩, ts', hts', rfl⟩ := h
    cases heq
    exact ⟨j, rest, fuel, ts', hscan, hts', rfl⟩

/-- A text of such characters that is read as a document is one number. -/
theorem scanNumber_of_parse {cs : List Char} (hcs : ∀ c ∈ cs, isNumeric c) {j : Json}
    (h : parse (String.ofList cs) = some j) : scanNumber cs = some (j, []) := by
  obtain ⟨ts, hts, hj⟩ := Option.bind_eq_some_iff.1 h
  rw [tokens, String.toList_ofList] at hts
  cases cs with
  | nil =>
    cases hts
    cases hj
  | cons c cs =>
    obtain ⟨j', rest, fuel, ts', hscan, hrest, rfl⟩ := tokensIn_numeric (hcs c List.mem_cons_self) hts
    cases rest with
    | nil =>
      have hts' : ts' = [] := by cases fuel <;> cases hrest <;> rfl
      subst hts'
      cases hj
      exact hscan
    | cons d rest =>
      -- A second number would stand directly behind the first.
      have hd := hcs d ((cuts_scanNumber.suffix hscan).subset List.mem_cons_self)
      obtain ⟨k, _, _, ts'', _, _, rfl⟩ := tokensIn_numeric hd hrest
      cases hj

/-! ### Natural numbers -/

theorem readDigits_toDigits (n : Nat) : Decimal.readDigits (Nat.toDigits 10 n) = n := by
  have h := Nat.ofDigitChars_ten_toDigits (n := n)
  simpa [Decimal.readDigits, Nat.ofDigitChars, Decimal.digitValue, Nat.mul_comm] using h

/-- Only zero is written with a zero in front. -/
theorem head?_toDigits {n : Nat} (hn : 0 < n) : (Nat.toDigits 10 n).head? ≠ some '0' := by
  induction n using Nat.strongRecOn with
  | ind n ih =>
    by_cases hlt : n < 10
    · rw [Nat.toDigits_of_lt_base hlt]
      simp
      omega
    · have hne : Nat.toDigits 10 (n / 10) ≠ [] := Nat.toDigits_ne_nil
      rw [Nat.toDigits_of_base_le (by omega) (by omega), List.head?_append_of_ne_nil _ hne]
      exact ih (n / 10) (by omega) (by omega)

theorem isDigit_of_mem_toDigits {n : Nat} {c : Char} (hc : c ∈ Nat.toDigits 10 n) : c.isDigit :=
  Nat.isDigit_of_mem_toDigits (by decide) (by decide) hc

theorem spanDigits_of_all {ds : List Char} (h : ∀ c ∈ ds, c.isDigit) : spanDigits ds = (ds, []) := by
  rw [spanDigits_eq, List.takeWhile_eq_self_iff.2 h, List.dropWhile_eq_nil_iff.2 h]

theorem scanNumber_toDigits {n : Nat} (hn : n ≤ Decimal.maxSignificand) :
    scanNumber (Nat.toDigits 10 n) = some (natural n, []) := by
  have hdigits : ∀ c ∈ Nat.toDigits 10 n, c.isDigit := fun c hc => isDigit_of_mem_toDigits hc
  have hvalue : (⟨false, Nat.toDigits 10 n, [], none⟩ : Literal).value = natural n := by
    simp [Literal.value, readDigits_toDigits, hn]
  have hwhole : scanWhole (Nat.toDigits 10 n) = some (Nat.toDigits 10 n, []) := by
    rcases Nat.eq_zero_or_pos n with rfl | hpos
    · rfl
    · have hhead := head?_toDigits hpos
      cases hcs : Nat.toDigits 10 n with
      | nil => exact absurd hcs Nat.toDigits_ne_nil
      | cons c ds =>
        rw [hcs] at hhead hdigits
        have hc : c ≠ '0' := by simpa using hhead
        rw [scanWhole, if_neg hc, if_pos (hdigits c List.mem_cons_self),
          spanDigits_of_all fun d hd => hdigits d (List.mem_cons_of_mem c hd)]
  have hmagnitude : scanMagnitude false (Nat.toDigits 10 n) = some (natural n, []) :=
    scanMagnitude_eq_some.2 ⟨_, _, hwhole, _, _, rfl, _, rfl, hvalue⟩
  unfold scanNumber
  split
  next heq =>
    have hminus := hdigits '-' (by simp [heq])
    cases hminus
  next => exact hmagnitude

/-! ### Strings -/

/-- How a character of a string is scanned after it is written. -/
def pieceOf (c : Char) : Piece :=
  if c.toNat < 0x20 ∧ c ∉ ['\x08', '\x0c', '\n', '\r', '\t'] then .unit c.toNat else .char c

theorem hexValue?_hexDigit : ∀ n < 16, hexValue? (hexDigit n) = some n := by decide

/-- A letter after a backslash. -/
theorem scanPieces_escape {letter c : Char} (hletter : escape? letter = some c)
    (hc : pieceOf c = .char c) (cs : List Char) :
    scanPieces ('\\' :: letter :: cs) = (scanPieces cs).map fun p => (pieceOf c :: p.1, p.2) := by
  rw [hc]
  rw [scanPieces, hletter]
  · cases scanPieces cs <;> rfl
  · rintro a b d e rest rfl
    cases hletter

theorem scanPieces_escapeChar (c : Char) (cs : List Char) :
    scanPieces (escapeChar c ++ cs) =
      (scanPieces cs).map fun p => (pieceOf c :: p.1, p.2) := by
  unfold escapeChar
  split_ifs with hquote hbackslash hb hf hn hr ht hcontrol
  · subst hquote
    exact scanPieces_escape rfl rfl cs
  · subst hbackslash
    exact scanPieces_escape rfl rfl cs
  · subst hb
    exact scanPieces_escape rfl rfl cs
  · subst hf
    exact scanPieces_escape rfl rfl cs
  · subst hn
    exact scanPieces_escape rfl rfl cs
  · subst hr
    exact scanPieces_escape rfl rfl cs
  · subst ht
    exact scanPieces_escape rfl rfl cs
  · have h₁ := hexValue?_hexDigit (c.toNat / 16) (by omega)
    have h₂ := hexValue?_hexDigit (c.toNat % 16) (by omega)
    have hunit : hexUnit? '0' '0' (hexDigit (c.toNat / 16)) (hexDigit (c.toNat % 16)) =
        some c.toNat := by
      have h₀ : hexValue? '0' = some 0 := rfl
      simp [hexUnit?, h₀, h₁, h₂]
      omega
    have hpiece : pieceOf c = .unit c.toNat := by simp [pieceOf, hcontrol, hb, hf, hn, hr, ht]
    rw [hpiece]
    simp only [List.cons_append, List.nil_append, scanPieces, hunit]
    cases scanPieces cs <;> rfl
  · have hpiece : pieceOf c = .char c := by simp [pieceOf, hcontrol]
    rw [hpiece, List.singleton_append, scanPieces, if_neg (by simp [hcontrol, hbackslash])]
    · cases scanPieces cs <;> rfl
    · exact hquote
    · intro _ _ _ _ _ hc
      exact absurd hc hbackslash
    · intro _ _ hc
      exact absurd hc hbackslash

theorem scanPieces_escaped (cs rest : List Char) :
    scanPieces (cs.flatMap escapeChar ++ '"' :: rest) = some (cs.map pieceOf, rest) := by
  induction cs with
  | nil => rfl
  | cons c cs ih =>
    rw [List.flatMap_cons, List.append_assoc, scanPieces_escapeChar, ih]
    rfl

/-- A control character stands for itself. -/
theorem joinPieces_unit {n : Nat} (hn : n < 0x20) (ps : List Piece) :
    joinPieces (.unit n :: ps) = (joinPieces ps).map (Char.ofNat n :: ·) := by
  have hleading : isLeading n = false := by simp [isLeading]; omega
  have htrailing : isTrailing n = false := by simp [isTrailing]; omega
  cases ps with
  | nil => simp [joinPieces, hleading, htrailing]
  | cons p ps => cases p <;> simp [joinPieces, hleading, htrailing]

theorem joinPieces_map (cs : List Char) : joinPieces (cs.map pieceOf) = some cs := by
  induction cs with
  | nil => rfl
  | cons c cs ih =>
    rw [List.map_cons, pieceOf]
    split_ifs with hc
    · rw [joinPieces_unit hc.1, ih, Option.map_some, Char.ofNat_toNat]
    · rw [joinPieces, ih, Option.map_some]

/-- A string in quotes is a token. -/
theorem Lexes.quoted {rest : List Char} {ts : List Token} (s : String) (h : Lexes rest ts) :
    Lexes ((Json.quoted s).toList ++ rest) (.scalar (text (some s)) :: ts) := by
  have htext : (Json.quoted s).toList ++ rest =
      '"' :: ((s.toList.flatMap escapeChar ++ ['"']) ++ rest) := by
    simp only [Json.quoted, String.toList_append, String.toList_ofList]
    simp
  rw [htext]
  refine Lexes.token _ rfl ?_ h
  rw [List.append_assoc, List.singleton_append, scanToken, scanString, scanPieces_escaped]
  simp [joinPieces_map]

/-! ### Doubles -/

theorem isFinite_iff {x : Float} : x.isFinite ↔ x.isNaN = false ∧ x.isInf = false := by
  unfold Float.isFinite Float.isNaN Float.isInf Float.Model.isFinite Float.Model.isNaN
    Float.Model.isInf
  cases x.toModel.unpack <;> simp [Float.Model.UnpackedFloat.isFinite,
    Float.Model.UnpackedFloat.isNaN, Float.Model.UnpackedFloat.isInf]

theorem mem_digits_ofNat {n : Nat} {grid : Int} {c : Char}
    (hc : c ∈ (Decimal.Digits.ofNat n grid).digits) : c.isDigit := by
  have hmem := (List.dropWhile_suffix _).subset (List.mem_reverse.1 hc)
  exact isDigit_of_mem_toDigits (List.mem_reverse.1 hmem)

theorem mem_digits_shortest {x : Decimal.Interval} {tie : Decimal.Tie} {c : Char}
    (hc : c ∈ (x.shortest tie).digits) : c.isDigit := by
  simp only [Decimal.Interval.shortest] at hc
  generalize hfound : List.findSome? _ (List.range 17) = found at hc
  cases found with
  | none => exact mem_digits_ofNat hc
  | some d =>
    obtain ⟨n, _, hn⟩ := List.exists_of_findSome?_eq_some hfound
    obtain ⟨k, _, rfl⟩ := Option.map_eq_some_iff.1 hn
    exact mem_digits_ofNat hc

theorem isNumeric_of_isDigit {c : Char} (hc : c.isDigit) : isNumeric c := by simp [isNumeric, hc]

theorem isNumeric_positional {d : Decimal.Digits} (hd : ∀ c ∈ d.digits, c.isDigit) {c : Char}
    (hc : c ∈ d.positional) : isNumeric c := by
  unfold Decimal.Digits.positional at hc
  split_ifs at hc
  · simp only [List.mem_cons, List.mem_append, Decimal.zeros, List.mem_replicate] at hc
    rcases hc with rfl | rfl | ⟨_, rfl⟩ | hc
    · rfl
    · rfl
    · rfl
    · exact isNumeric_of_isDigit (hd c hc)
  · simp only [List.mem_append, List.mem_cons, Decimal.zeros, List.mem_replicate] at hc
    rcases hc with (hc | ⟨_, rfl⟩) | rfl | hc
    · exact isNumeric_of_isDigit (hd c (List.mem_of_mem_take hc))
    · rfl
    · rfl
    · split_ifs at hc
      · rw [List.mem_singleton.1 hc]
        rfl
      · exact isNumeric_of_isDigit (hd c (List.mem_of_mem_drop hc))

theorem isNumeric_scientific {d : Decimal.Digits} (hd : ∀ c ∈ d.digits, c.isDigit) {c : Char}
    (hc : c ∈ d.scientific numberLayout.mark) : isNumeric c := by
  unfold Decimal.Digits.scientific at hc
  rcases List.mem_append.1 hc with hc | hc
  · have hmem : c = '.' ∨ c ∈ d.digits := by
      split at hc <;> simp_all
      tauto
    rcases hmem with rfl | hmem
    · rfl
    · exact isNumeric_of_isDigit (hd c hmem)
  · have hmem : c = 'e' ∨ c = '-' ∨ c = '+' ∨ c ∈ Nat.toDigits 10 d.exponent.natAbs := by
      split_ifs at hc
      · simp only [List.mem_cons] at hc
        tauto
      · simp [numberLayout] at hc
        tauto
    rcases hmem with rfl | rfl | rfl | hmem
    · rfl
    · rfl
    · rfl
    · exact isNumeric_of_isDigit (isDigit_of_mem_toDigits hmem)

/-- A finite double is written with the characters of a number. -/
theorem isNumeric_render {x : Float} (hx : x.isFinite) {c : Char}
    (hc : c ∈ (numberLayout.render x).toList) : isNumeric c := by
  obtain ⟨hnan, hinf⟩ := isFinite_iff.1 hx
  rw [Decimal.Layout.render, hnan, hinf, if_neg (by simp), if_neg (by simp),
    String.toList_ofList] at hc
  have hmagnitude : ∀ c ∈ numberLayout.magnitude x, isNumeric c := by
    intro c hc
    simp only [Decimal.Layout.magnitude] at hc
    split_ifs at hc
    · simp at hc
      rcases hc with rfl | rfl | rfl <;> rfl
    · unfold Decimal.Layout.digits at hc
      split_ifs at hc
      · exact isNumeric_positional (fun _ => mem_digits_shortest) hc
      · exact isNumeric_scientific (fun _ => mem_digits_shortest) hc
  split_ifs at hc
  · rcases List.mem_cons.1 hc with rfl | hc
    · rfl
    · exact hmagnitude c hc
  · exact hmagnitude c hc

/-- What is not finite is written as `null`. -/
theorem render_of_not_isFinite {x : Float} (hx : x.isFinite = false) :
    numberLayout.render x = "null" := by
  unfold Decimal.Layout.render
  have hfinite : ¬ (x.isNaN = false ∧ x.isInf = false) := fun h => by simp [isFinite_iff.2 h] at hx
  cases hnan : x.isNaN with
  | true => rfl
  | false =>
    cases hinf : x.isInf with
    | true => cases Decimal.isNegative x <;> rfl
    | false => exact absurd ⟨hnan, hinf⟩ hfinite

end StraightLine.Json
