import StraightLine.Json.Reader
import StraightLine.Proofs.Doubles
import StraightLine.Proofs.JsonDocuments

/-!
# Forms of values

A document is a form of a value for a reader (`Json.Form`) when it can be written and the reader
takes the value back from it, as long as its doubles are finite and its brackets do not nest too
deep, and nothing otherwise (`Json.fits`). Forms are put together as readers are: of lists, of
records and of choices.
-/

namespace StraightLine.Json

variable {α β : Type}

/-! ### What is read back -/

theorem back_ofString (s : String) : (ofString s).back = ofString s := by simp [ofString, back]

theorem back_natural (n : Nat) : (natural n).back = natural n := by simp [back]

theorem back_bool (b : Bool) : (bool b).back = bool b := by simp [back]

theorem back_ofFloat (x : Float) : (ofFloat x).back = if x.isFinite then ofFloat x else null := by
  simp [ofFloat, back]

theorem back_array (js : List Json) : (array js).back = array (js.map back) := by rw [back]

theorem back_ofMembers (ms : List (String × Json)) :
    (ofMembers ms).back = ofMembers (ms.map fun m => (m.1, m.2.back)) := by
  simp [ofMembers, back, Function.comp_def]

theorem back_tagged (name : String) (j : Json) : (tagged name j).back = tagged name j.back :=
  back_ofMembers [(name, j)]

/-! ### The doubles -/

@[simp] theorem floats_ofString (s : String) : (ofString s).floats = [] := by
  simp [ofString, floats]

@[simp] theorem floats_natural (n : Nat) : (natural n).floats = [] := by simp [floats]

@[simp] theorem floats_bool (b : Bool) : (bool b).floats = [] := by simp [floats]

@[simp] theorem floats_null : null.floats = [] := by simp [floats]

@[simp] theorem floats_ofFloat (x : Float) : (ofFloat x).floats = [x] := by simp [ofFloat, floats]

@[simp] theorem floats_array (js : List Json) : (array js).floats = js.flatMap floats := by
  rw [floats]

@[simp] theorem floats_ofMembers (ms : List (String × Json)) :
    (ofMembers ms).floats = ms.flatMap fun m => m.2.floats := by
  simp [ofMembers, floats, List.flatMap_map]

@[simp] theorem floats_tagged (name : String) (j : Json) : (tagged name j).floats = j.floats := by
  simp [tagged]

/-! ### What fits -/

/-- Whether the doubles of a document are finite and its brackets nest at most so deep. -/
def fits (d : Nat) (j : Json) : Bool := j.floats.all Float.isFinite && decide (j.depth ≤ d)

theorem fits_iff {d : Nat} {j : Json} :
    fits d j ↔ (∀ x ∈ j.floats, x.isFinite) ∧ j.depth ≤ d := by
  simp [fits]

theorem foldr_max_le_iff {ns : List Nat} {d : Nat} : ns.foldr max 0 ≤ d ↔ ∀ n ∈ ns, n ≤ d := by
  constructor
  · intro h n hn
    exact (List.le_max_of_le hn (Nat.le_refl n)).trans h
  · exact List.max_le_of_forall_le ns d

@[simp] theorem fits_ofString (d : Nat) (s : String) : fits d (ofString s) = true := by
  simp [fits, ofString, floats, depth]

@[simp] theorem fits_natural (d n : Nat) : fits d (natural n) = true := by
  simp [fits, depth]

@[simp] theorem fits_bool (d : Nat) (b : Bool) : fits d (bool b) = true := by
  simp [fits, depth]

@[simp] theorem fits_null (d : Nat) : fits d null = true := by
  simp [fits, depth]

@[simp] theorem fits_ofFloat (d : Nat) (x : Float) : fits d (ofFloat x) = x.isFinite := by
  simp [fits, ofFloat, floats, depth]

@[simp] theorem fits_array_zero (js : List Json) : fits 0 (array js) = false := by
  simp [fits, depth]

@[simp] theorem fits_array_succ (d : Nat) (js : List Json) :
    fits (d + 1) (array js) = js.all (fits d) := by
  rw [Bool.eq_iff_iff, fits_iff, List.all_eq_true]
  simp only [fits_iff, floats, depth, Nat.add_le_add_iff_right, foldr_max_le_iff, List.mem_flatMap,
    List.forall_mem_map]
  constructor
  · rintro ⟨hx, hd⟩ j hj
    exact ⟨fun x hxj => hx x ⟨j, hj, hxj⟩, hd j hj⟩
  · intro h
    refine ⟨?_, fun j hj => (h j hj).2⟩
    rintro x ⟨j, hj, hxj⟩
    exact (h j hj).1 x hxj

@[simp] theorem fits_ofMembers (d : Nat) (ms : List (String × Json)) :
    fits d (ofMembers ms) = fits d (array (ms.map Prod.snd)) := by
  simp [fits, ofMembers, floats, depth, List.flatMap_map, Function.comp_def]

@[simp] theorem fits_tagged_zero (name : String) (j : Json) : fits 0 (tagged name j) = false := by
  simp [tagged]

@[simp] theorem fits_tagged_succ (d : Nat) (name : String) (j : Json) :
    fits (d + 1) (tagged name j) = fits d j := by
  simp [tagged]

/-- A value, on a condition. -/
def given (c : Bool) (a : α) : Option α := if c then some a else none

@[simp] theorem given_true (a : α) : given true a = some a := rfl

@[simp] theorem given_false (a : α) : given false a = none := rfl

@[simp] theorem map_given (c : Bool) (a : α) (f : α → β) : (given c a).map f = given c (f a) := by
  cases c <;> rfl

@[simp] theorem given_bind_some (c : Bool) (a : α) (f : α → β) :
    ((given c a).bind fun x => some (f x)) = given c (f a) := by
  cases c <;> rfl

@[simp] theorem given_bind_given (c c' : Bool) (a : α) (f : α → β) :
    ((given c a).bind fun x => given c' (f x)) = given (c && c') (f a) := by
  cases c <;> rfl

/-! ### Forms -/

theorem writable_ofMembers {ms : List (String × Json)} (h : ∀ m ∈ ms, Writable m.2) :
    Writable (ofMembers ms) := by
  refine .object _ ?_ ?_
  · exact List.forall_mem_map.mpr fun _ _ => rfl
  · exact List.forall_mem_map.mpr h

/-- A document that is written for a value, and from which a reader takes the value back. -/
structure Form (r : Reader α) (j : Json) (a : α) : Prop where
  writable : Writable j
  read : ∀ d, r d j.back = given (fits d j) a

theorem form_string (s : String) : Form Reader.string (ofString s) s where
  writable := .text s
  read d := by
    rw [back_ofString, fits_ofString]
    rfl

theorem form_bool (b : Bool) : Form Reader.bool (bool b) b where
  writable := .bool b
  read d := by
    rw [back_bool, fits_bool]
    rfl

theorem form_numeral (c : Numeral) : Form Reader.numeral (ofFloat c.value) c where
  writable := .real c.value
  read d := by
    rw [back_ofFloat, fits_ofFloat]
    cases hfinite : c.value.isFinite with
    | false => rfl
    | true =>
      have hread : Reader.numeral d (ofFloat c.value) = some (Numeral.ofFloat c.value) := rfl
      rw [if_pos rfl, hread, Numeral.ofFloat_value (isFinite_iff.1 hfinite).1, given_true]

theorem form_name {r : Reader α} {s : String} {a : α} (h : ∀ d, r d (ofString s) = some a) :
    Form r (ofString s) a where
  writable := .text s
  read d := by rw [back_ofString, h, fits_ofString, given_true]

theorem form_option (o : Option String) :
    Form (Reader.option Reader.string) ((o.map ofString).getD null) o where
  writable := by
    cases o with
    | none => exact .null
    | some s => exact .text s
  read d := by
    cases o with
    | none => simp [back, Reader.option]
    | some s =>
      simp only [Option.map_some, Option.getD_some]
      rw [back_ofString, fits_ofString]
      rfl

theorem le_maxSignificand {n : Nat} (h : n < UInt64.size) : n ≤ Decimal.maxSignificand :=
  Nat.le_of_lt_succ h

theorem form_word {n : Nat} (h : n < UInt32.size) : Form Reader.word (natural n) n where
  writable := .natural _ (le_maxSignificand (h.trans (by decide)))
  read d := by simp [back_natural, Reader.word, Reader.below, h]

theorem form_byte (b : UInt8) : Form Reader.byte (natural b.toNat) b where
  writable := .natural _ (le_maxSignificand (b.toNat_lt.trans (by decide)))
  read d := by
    have h : b.toNat < UInt8.size := b.toNat_lt
    simp [back_natural, Reader.byte, Reader.below, h]

theorem form_size (n : UInt64) : Form Reader.size (natural n.toNat) n where
  writable := .natural _ (le_maxSignificand n.toNat_lt)
  read d := by
    have h : n.toNat < UInt64.size := n.toNat_lt
    simp [back_natural, Reader.size, Reader.below, h]

theorem Form.map {r : Reader α} {j : Json} {a : α} (h : Form r j a) (f : α → β) :
    Form (fun d j => (r d j).map f) j (f a) where
  writable := h.writable
  read d := by rw [h.read, map_given]

theorem mapM_back {r : Reader α} {f : α → Json} {as : List α} (h : ∀ a ∈ as, Form r (f a) a)
    (d : Nat) : ((as.map f).map back).mapM (r d) = given ((as.map f).all (fits d)) as := by
  induction as with
  | nil => rfl
  | cons a as ih =>
    have ha := (h a List.mem_cons_self).read d
    have ih := ih fun b hb => h b (List.mem_cons_of_mem a hb)
    rw [List.map_cons, List.map_cons, List.mapM_cons, ha, ih]
    simp

theorem form_list {r : Reader α} {f : α → Json} {as : List α} (h : ∀ a ∈ as, Form r (f a) a) :
    Form (Reader.list r) (array (as.map f)) as where
  writable := .array _ (List.forall_mem_map.mpr fun a ha => (h a ha).writable)
  read d := by
    cases d with
    | zero =>
      rw [fits_array_zero]
      rfl
    | succ d =>
      rw [back_array, fits_array_succ, ← mapM_back h d]
      rfl

theorem form_pair {r : Reader α} {s : Reader β} {j k : Json} {a : α} {b : β} (hj : Form r j a)
    (hk : Form s k b) : Form (Reader.pair r s) (array [j, k]) (a, b) where
  writable := .array _ (by simp [hj.writable, hk.writable])
  read d := by
    cases d with
    | zero =>
      rw [fits_array_zero]
      rfl
    | succ d => simp [back_array, Reader.pair, hj.read, hk.read]

theorem form_oneOf {all : List α} {name : α → String} {a : α}
    (h : all.find? (fun b => name b = name a) = some a) :
    Form (Reader.oneOf all name) (ofString (name a)) a where
  writable := .text (name a)
  read d := by
    rw [back_ofString, fits_ofString, given_true, ← h]
    cases d <;> rfl

/-- A choice with a payload has a form if its payload has one. -/
theorem Form.tagged {r s : Reader α} {j : Json} {a : α} {name : String} (h : Form r j a)
    (hzero : ∀ k, s 0 (tagged name k) = none) (hsucc : ∀ d k, s (d + 1) (tagged name k) = r d k) :
    Form s (tagged name j) a where
  writable := writable_ofMembers (by simpa using h.writable)
  read d := by
    rw [back_tagged]
    cases d with
    | zero => rw [hzero, fits_tagged_zero, given_false]
    | succ d => rw [hsucc, h.read, fits_tagged_succ]

theorem lookup_of_nodup {ms : List (String × Json)} (h : (ms.map Prod.fst).Nodup)
    {m : String × Json} (hm : m ∈ ms) :
    (ms.map fun m => (some m.1, m.2)).lookup (some m.1) = some m.2 := by
  induction ms with
  | nil => cases hm
  | cons k ms ih =>
    rw [List.map_cons, List.nodup_cons] at h
    rw [List.map_cons, List.lookup_cons]
    rcases List.mem_cons.mp hm with rfl | hm
    · simp
    · have hne : (some m.1 == some k.1) = false := by
        rw [beq_eq_false_iff_ne, ne_eq, Option.some.injEq]
        exact fun he => h.1 (he ▸ List.mem_map_of_mem hm)
      rw [hne]
      exact ih h.2 hm

theorem fields_ofMembers {ms : List (String × Json)} (h : (ms.map Prod.fst).Nodup) :
    Reader.fields (ms.map Prod.fst) (ofMembers ms) = some (ms.map Prod.snd) := by
  have hlookup : (ms.map Prod.fst).map (fun n =>
      ((ms.map fun m => (some m.1, m.2)).lookup (some n)).getD null) = ms.map Prod.snd := by
    rw [List.map_map]
    refine List.map_congr_left fun m hm => ?_
    simp [lookup_of_nodup h hm]
  have hcount : ∀ n, (ms.map fun m => (some m.1, m.2)).countP (fun m => m.1 = some n) ≤ 1 := by
    intro n
    have hle := List.nodup_iff_count_le_one.mp h n
    rw [List.count, List.countP_map] at hle
    rw [List.countP_map]
    refine (List.countP_mono_left fun m _ hm => ?_).trans hle
    simpa using hm
  rw [ofMembers, Reader.fields, hlookup, if_pos]
  simp only [Bool.and_eq_true, List.all_eq_true, decide_eq_true_eq]
  exact ⟨List.forall_mem_map.mpr fun _ _ => rfl, fun n _ => hcount n⟩

/-- A record has a form if it is read from what its fields are read as. -/
theorem form_record {names : List String} {k : Nat → List Json → Option α}
    {ms : List (String × Json)} {a : α} (hnames : names = ms.map Prod.fst) (hnodup : names.Nodup)
    (hw : ∀ m ∈ ms, Writable m.2)
    (hk : ∀ d, k d (ms.map fun m => m.2.back) = given (ms.all fun m => fits d m.2) a) :
    Form (Reader.record names k) (ofMembers ms) a where
  writable := writable_ofMembers hw
  read d := by
    cases d with
    | zero =>
      rw [fits_ofMembers, fits_array_zero]
      rfl
    | succ d =>
      have hback : names = (ms.map fun m => (m.1, m.2.back)).map Prod.fst := by
        simp [hnames, Function.comp_def]
      have hfields := fields_ofMembers (hback ▸ hnodup)
      rw [← hback] at hfields
      simp [back_ofMembers, Reader.record, hfields, Function.comp_def, hk]

/-- **What is read of the text of a form** is the value, if its doubles are finite and brackets do
not nest too deep in the text, and nothing otherwise. -/
theorem Form.read_text {r : Reader α} {j : Json} {a : α} (h : Form r j a)
    (hx : ∀ x ∈ j.floats, x.isFinite → ReadsBack x) :
    (parse j.render).bind (r maxDepth) =
      if (∀ x ∈ j.floats, x.isFinite) ∧ nesting j.render < 128 then some a else none := by
  have hfits : fits maxDepth j = true ↔ (∀ x ∈ j.floats, x.isFinite) ∧ nesting j.render < 128 := by
    rw [fits_iff, nesting_render h.writable hx, maxDepth, Nat.lt_succ_iff]
  rw [parse_render h.writable hx, Option.bind_some, h.read, given]
  simp only [hfits]

end StraightLine.Json
