import StraightLine.Proofs.JsonScan

/-!
# Documents that are written

A document that is written and read again is the same, except that a double that is not finite has
become `null` (`Json.back`). This holds of documents that stand for something (`Json.Writable`) and
whose doubles are read as they are written (`Json.ReadsBack`). How deep brackets nest in the text is
how deep they nest in the document (`Json.nesting_render`).
-/

namespace StraightLine.Json

/-! ### What is in a document -/

theorem sizeOf_lt_of_mem {m : Option String × Json} {ms : List (Option String × Json)}
    (h : m ∈ ms) : sizeOf m.2 < sizeOf (object ms) := by
  have hlt := List.sizeOf_lt_of_mem h
  have hpair : sizeOf m = 1 + sizeOf m.1 + sizeOf m.2 := by
    cases m
    rfl
  rw [object.sizeOf_spec]
  omega

/-- What is read where a document was written. -/
def back : Json → Json
  | real (some x) => if x.isFinite then real (some x) else null
  | array js => array (js.map back)
  | object ms => object (ms.map fun m => (m.1, m.2.back))
  | j => j
  termination_by j => sizeOf j
  decreasing_by
    · have hlt := List.sizeOf_lt_of_mem ‹_›
      rw [array.sizeOf_spec]
      omega
    · exact sizeOf_lt_of_mem ‹_›

/-- The doubles in a document. -/
def floats : Json → List Float
  | real (some x) => [x]
  | array js => js.flatMap floats
  | object ms => ms.flatMap fun m => m.2.floats
  | _ => []
  termination_by j => sizeOf j
  decreasing_by
    · have hlt := List.sizeOf_lt_of_mem ‹_›
      rw [array.sizeOf_spec]
      omega
    · exact sizeOf_lt_of_mem ‹_›

/-- How deep brackets nest in a document. -/
def depth : Json → Nat
  | array js => (js.map depth).foldr max 0 + 1
  | object ms => (ms.map fun m => m.2.depth).foldr max 0 + 1
  | _ => 0
  termination_by j => sizeOf j
  decreasing_by
    · have hlt := List.sizeOf_lt_of_mem ‹_›
      rw [array.sizeOf_spec]
      omega
    · exact sizeOf_lt_of_mem ‹_›

/-- The tokens of a document that is written. -/
def written : Json → List Token
  | array js => .leftBracket :: (List.intercalate [.comma] (js.map written) ++ [.rightBracket])
  | object ms =>
    .leftBrace :: (List.intercalate [.comma]
      (ms.map fun m => .scalar (text m.1) :: .colon :: m.2.written) ++ [.rightBrace])
  | j => [.scalar j.back]
  termination_by j => sizeOf j
  decreasing_by
    · have hlt := List.sizeOf_lt_of_mem ‹_›
      rw [array.sizeOf_spec]
      omega
    · exact sizeOf_lt_of_mem ‹_›

/-- A double whose text is read as the double. -/
def ReadsBack (x : Float) : Prop := parse (ofFloat x).render = some (ofFloat x)

/-- A number that is written with a fraction or an exponent. -/
def real? : Json → Option Float
  | real x => x
  | _ => none

theorem readsBack_iff {x : Float} :
    ReadsBack x ↔ (parse (ofFloat x).render).bind real? = some x := by
  constructor
  · intro h
    rw [h]
    rfl
  · intro h
    obtain ⟨j, hj, hx⟩ := Option.bind_eq_some_iff.mp h
    have hreal : j = ofFloat x := by
      cases j with
      | real y => rw [ofFloat, ← hx, real?]
      | _ => cases hx
    rw [ReadsBack, hj, hreal]

instance (x : Float) : Decidable (ReadsBack x) := decidable_of_iff' _ readsBack_iff

/-- A document in which names, strings and numbers stand for something. -/
inductive Writable : Json → Prop
  | null : Writable null
  | bool (b : Bool) : Writable (bool b)
  | natural (n : Nat) (fits : n ≤ Decimal.maxSignificand) : Writable (natural n)
  | real (x : Float) : Writable (real (some x))
  | text (s : String) : Writable (text (some s))
  | array (js : List Json) (items : ∀ j ∈ js, Writable j) : Writable (array js)
  | object (ms : List (Option String × Json)) (names : ∀ m ∈ ms, m.1.isSome)
      (values : ∀ m ∈ ms, Writable m.2) : Writable (object ms)

/-! ### Cutting a text into tokens -/

theorem stops_comma (cs : List Char) : Stops (',' :: cs) := by
  intro c hc
  cases hc
  decide

theorem stops_newline (depth : Nat) (cs : List Char) : Stops ((newline depth).toList ++ cs) := by
  intro c hc
  simp only [newline, String.toList_append, String.toList_ofList] at hc
  cases hc
  decide

/-- A document is cut into its tokens again, at whatever depth it is written. -/
def Lexed (j : Json) : Prop :=
  ∀ depth rest ts, Stops rest → Lexes rest ts →
    Lexes ((renderAt depth j).toList ++ rest) (written j ++ ts)

theorem lexes_comma {cs : List Char} {ts : List Token} (h : Lexes cs ts) :
    Lexes (",".toList ++ cs) (.comma :: ts) :=
  Lexes.token [] rfl rfl h

theorem lexes_renderItems {js : List Json} (hjs : ∀ j ∈ js, Lexed j) (depth : Nat)
    {rest : List Char} {ts : List Token} (hrest : Stops rest) (h : Lexes rest ts) :
    Lexes ((renderItems depth js).toList ++ rest)
      (List.intercalate [.comma] (js.map written) ++ ts) := by
  induction js with
  | nil => simpa [renderItems] using h
  | cons j js ih =>
    have hj := hjs j List.mem_cons_self
    cases js with
    | nil =>
      simp only [renderItems, String.toList_append, List.append_assoc]
      simpa using (hj depth rest ts hrest h).newline depth
    | cons k js =>
      have ih := ih fun i hi => hjs i (List.mem_cons_of_mem j hi)
      have hrest' := stops_comma ((renderItems depth (k :: js)).toList ++ rest)
      have h' := (hj depth _ _ hrest' (lexes_comma ih)).newline depth
      rw [List.map_cons, List.map_cons, List.intercalate_cons_cons]
      simpa [renderItems, String.toList_append] using h'

theorem lexes_member {m : Option String × Json} (hname : m.1.isSome) (hm : Lexed m.2) (depth : Nat)
    {rest : List Char} {ts : List Token} (hrest : Stops rest) (h : Lexes rest ts) :
    Lexes ((newline depth ++ quoted (m.1.getD "") ++ ": " ++ renderAt depth m.2).toList ++ rest)
      (.scalar (text m.1) :: .colon :: (m.2.written ++ ts)) := by
  obtain ⟨_ | name, j⟩ := m
  · cases hname
  · have hvalue : Lexes (": ".toList ++ ((renderAt depth j).toList ++ rest))
        (.colon :: (j.written ++ ts)) :=
      Lexes.token [] rfl rfl ((hm depth rest ts hrest h).gap rfl)
    have hall := (hvalue.quoted name).newline depth
    simpa [String.toList_append] using hall

theorem lexes_renderMembers {ms : List (Option String × Json)} (hnames : ∀ m ∈ ms, m.1.isSome)
    (hms : ∀ m ∈ ms, Lexed m.2) (depth : Nat) {rest : List Char} {ts : List Token}
    (hrest : Stops rest) (h : Lexes rest ts) :
    Lexes ((renderMembers depth ms).toList ++ rest)
      (List.intercalate [.comma] (ms.map fun m => .scalar (text m.1) :: .colon :: m.2.written)
        ++ ts) := by
  induction ms with
  | nil => simpa [renderMembers] using h
  | cons m ms ih =>
    have hname := hnames m List.mem_cons_self
    have hm := hms m List.mem_cons_self
    obtain ⟨k, j⟩ := m
    cases ms with
    | nil =>
      have h' := lexes_member hname hm depth hrest h
      simpa [renderMembers] using h'
    | cons m' ms =>
      have ih := ih (fun i hi => hnames i (List.mem_cons_of_mem _ hi))
        fun i hi => hms i (List.mem_cons_of_mem _ hi)
      have hrest' := stops_comma ((renderMembers depth (m' :: ms)).toList ++ rest)
      have h' := lexes_member hname hm depth hrest' (lexes_comma ih)
      rw [List.map_cons, List.map_cons, List.intercalate_cons_cons]
      simpa [renderMembers, String.toList_append] using h'

theorem lexed_float {x : Float} (hx : x.isFinite → ReadsBack x) : Lexed (real (some x)) := by
  intro depth rest ts hrest h
  rw [renderAt]
  cases hfinite : x.isFinite with
  | false =>
    rw [render_of_not_isFinite hfinite]
    have hnull : Lexes ("null".toList ++ rest) (.scalar null :: ts) :=
      Lexes.token ['u', 'l', 'l'] rfl rfl h
    simpa [written, back, hfinite] using hnull
  | true =>
    have hnumeric : ∀ c ∈ (numberLayout.render x).toList, isNumeric c :=
      fun c hc => isNumeric_render hfinite hc
    have hparse : parse (String.ofList (numberLayout.render x).toList) = some (ofFloat x) := by
      rw [String.ofList_toList]
      exact hx hfinite
    have h' := Lexes.number hnumeric (scanNumber_of_parse hnumeric hparse) hrest h
    simpa [written, back, hfinite, ofFloat] using h'

theorem lexed_natural {n : Nat} (hn : n ≤ Decimal.maxSignificand) : Lexed (natural n) := by
  intro depth rest ts hrest h
  have hnumeric : ∀ c ∈ Nat.toDigits 10 n, isNumeric c :=
    fun c hc => isNumeric_of_isDigit (isDigit_of_mem_toDigits hc)
  have h' := Lexes.number hnumeric (scanNumber_toDigits hn) hrest h
  rw [renderAt, Nat.toString_eq_ofList_toDigits, String.toList_ofList]
  simpa [written, back] using h'

/-- **A document that is written is cut into its tokens.** -/
theorem Writable.lexed {j : Json} (hj : Writable j)
    (hx : ∀ x ∈ j.floats, x.isFinite → ReadsBack x) : Lexed j := by
  induction hj with
  | null =>
    intro depth rest ts hrest h
    have h' : Lexes ("null".toList ++ rest) (.scalar Json.null :: ts) :=
      Lexes.token ['u', 'l', 'l'] rfl rfl h
    simpa [renderAt, written, back] using h'
  | bool b =>
    intro depth rest ts hrest h
    cases b with
    | false =>
      have h' : Lexes ("false".toList ++ rest) (.scalar (.bool false) :: ts) :=
        Lexes.token ['a', 'l', 's', 'e'] rfl rfl h
      simpa [renderAt, written, back] using h'
    | true =>
      have h' : Lexes ("true".toList ++ rest) (.scalar (.bool true) :: ts) :=
        Lexes.token ['r', 'u', 'e'] rfl rfl h
      simpa [renderAt, written, back] using h'
  | natural n hn => exact lexed_natural hn
  | real x => exact lexed_float (hx x (by simp [floats]))
  | text s =>
    intro depth rest ts hrest h
    simpa [renderAt, written, back] using h.quoted s
  | array js _ ih =>
    intro depth rest ts hrest h
    have hitems : ∀ j ∈ js, Lexed j := by
      intro j hj
      refine ih j hj fun x hxj => hx x ?_
      rw [floats]
      exact List.mem_flatMap_of_mem hj hxj
    have hclose : Lexes ("]".toList ++ rest) (.rightBracket :: ts) := Lexes.token [] rfl rfl h
    have hopen {cs : List Char} {ts : List Token} (h : Lexes cs ts) :
        Lexes ("[".toList ++ cs) (.leftBracket :: ts) := Lexes.token [] rfl rfl h
    cases js with
    | nil => simpa [renderAt, written] using hopen hclose
    | cons j js =>
      have hrest' := stops_newline depth ("]".toList ++ rest)
      have h' := hopen (lexes_renderItems hitems (depth + 1) hrest' (hclose.newline depth))
      simpa [renderAt, written, String.toList_append] using h'
  | object ms hnames _ ih =>
    intro depth rest ts hrest h
    have hvalues : ∀ m ∈ ms, Lexed m.2 := by
      intro m hm
      refine ih m hm fun x hxm => hx x ?_
      rw [floats]
      exact List.mem_flatMap_of_mem hm hxm
    have hclose : Lexes ("\x7d".toList ++ rest) (.rightBrace :: ts) := Lexes.token [] rfl rfl h
    have hopen {cs : List Char} {ts : List Token} (h : Lexes cs ts) :
        Lexes ("\x7b".toList ++ cs) (.leftBrace :: ts) := Lexes.token [] rfl rfl h
    cases ms with
    | nil => simpa [renderAt, written] using hopen hclose
    | cons m ms =>
      have hrest' := stops_newline depth ("\x7d".toList ++ rest)
      have h' := hopen (lexes_renderMembers hnames hvalues (depth + 1) hrest' (hclose.newline depth))
      simpa [renderAt, written, String.toList_append] using h'

/-! ### Putting tokens together -/

theorem tokens_render {j : Json} (hj : Writable j)
    (hx : ∀ x ∈ j.floats, x.isFinite → ReadsBack x) : tokens j.render = some j.written := by
  apply tokens_of_lexes
  have h := hj.lexed hx 0 [] [] (by simp [Stops]) Lexes.nil
  simpa [render] using h

/-- Where a value is expected, a document is read. -/
def Assembles (j : Json) : Prop :=
  ∀ e st ts, e = .value ∨ e = .valueOrEnd →
    Reading.steps ⟨e, st⟩ (written j ++ ts) = Reading.steps ⟨.after j.back, st⟩ ts

theorem steps_items {js : List Json} (hjs : ∀ j ∈ js, Assembles j) (hne : js ≠ [])
    {e : Expect} (he : e = .value ∨ e = .valueOrEnd) (read : List Json) (st : List Open)
    (ts : List Token) :
    Reading.steps ⟨e, .array read :: st⟩
        (List.intercalate [.comma] (js.map written) ++ .rightBracket :: ts) =
      Reading.steps ⟨.after (array (read.reverse ++ js.map back)), st⟩ ts := by
  induction js generalizing e read with
  | nil => exact absurd rfl hne
  | cons j js ih =>
    have hj := hjs j List.mem_cons_self
    cases js with
    | nil =>
      have h := hj e (.array read :: st) (.rightBracket :: ts) he
      simpa [Reading.steps, Reading.step] using h
    | cons k js =>
      have ih := ih (fun i hi => hjs i (List.mem_cons_of_mem j hi)) (by simp) (.inl rfl)
        (j.back :: read)
      rw [List.map_cons, List.map_cons, List.intercalate_cons_cons]
      simp only [List.append_assoc]
      rw [hj _ _ _ he]
      simpa [Reading.steps, Reading.step] using ih

theorem steps_members {ms : List (Option String × Json)} (hms : ∀ m ∈ ms, Assembles m.2)
    (hne : ms ≠ []) {e : Expect} (he : e = .name ∨ e = .nameOrEnd)
    (read : List (Option String × Json)) (st : List Open) (ts : List Token) :
    Reading.steps ⟨e, .object read none :: st⟩
        (List.intercalate [.comma] (ms.map fun m => .scalar (text m.1) :: .colon :: m.2.written)
          ++ .rightBrace :: ts) =
      Reading.steps
        ⟨.after (object (read.reverse ++ ms.map fun m => (m.1, m.2.back))), st⟩ ts := by
  induction ms generalizing e read with
  | nil => exact absurd rfl hne
  | cons m ms ih =>
    have hm := hms m List.mem_cons_self
    have hname (us : List Token) :
        Reading.steps ⟨e, .object read none :: st⟩
          (.scalar (text m.1) :: .colon :: (m.2.written ++ us)) =
        Reading.steps ⟨.after m.2.back, .object read m.1 :: st⟩ us := by
      rw [← hm .value _ us (.inl rfl)]
      rcases he with rfl | rfl <;> rfl
    cases ms with
    | nil =>
      have h := hname (.rightBrace :: ts)
      simpa [Reading.steps, Reading.step] using h
    | cons m' ms =>
      have ih := ih (fun i hi => hms i (List.mem_cons_of_mem m hi)) (by simp) (.inl rfl)
        ((m.1, m.2.back) :: read)
      rw [List.map_cons, List.map_cons, List.intercalate_cons_cons]
      simp only [List.cons_append, List.append_assoc]
      rw [hname]
      simpa [Reading.steps, Reading.step] using ih

theorem assembles_scalar {j : Json} (hj : j.written = [.scalar j.back]) : Assembles j := by
  intro e st ts he
  rw [hj]
  rcases he with rfl | rfl <;> rfl

/-- **The tokens of a document are put together to what was written.** -/
theorem Writable.assembles {j : Json} (hj : Writable j) : Assembles j := by
  induction hj with
  | array js _ ih =>
    intro e st ts he
    have hopen : Reading.step ⟨e, st⟩ .leftBracket = some ⟨.valueOrEnd, .array [] :: st⟩ := by
      rcases he with rfl | rfl <;> rfl
    rw [written, List.cons_append, List.append_assoc, Reading.steps, hopen, Option.bind_some]
    cases js with
    | nil => simp [Reading.steps, Reading.step, back, List.intercalate]
    | cons j js =>
      rw [List.singleton_append, steps_items ih (by simp) (.inr rfl)]
      simp [back]
  | object ms _ _ ih =>
    intro e st ts he
    have hopen : Reading.step ⟨e, st⟩ .leftBrace = some ⟨.nameOrEnd, .object [] none :: st⟩ := by
      rcases he with rfl | rfl <;> rfl
    rw [written, List.cons_append, List.append_assoc, Reading.steps, hopen, Option.bind_some]
    cases ms with
    | nil => simp [Reading.steps, Reading.step, back, List.intercalate]
    | cons m ms =>
      rw [List.singleton_append, steps_members ih (by simp) (.inr rfl)]
      simp [back]
  | _ => exact assembles_scalar (by simp [written])

/-- **What is read where a document was written is the document**, but for doubles that are not
finite. -/
theorem parse_render {j : Json} (hj : Writable j)
    (hx : ∀ x ∈ j.floats, x.isFinite → ReadsBack x) : parse j.render = some j.back := by
  have h := hj.assembles .value [] [] (.inl rfl)
  rw [List.append_nil] at h
  rw [parse, tokens_render hj hx, Option.bind_some, ofTokens, h]
  rfl

/-! ### How deep a text nests -/

/-- The greatest number of brackets that are open at a time, where `n` are open before and `deepest`
is the greatest number so far. -/
def nestingOf : Nat → Nat → List Token → Nat
  | _, deepest, [] => deepest
  | n, deepest, .leftBrace :: ts => nestingOf (n + 1) (max deepest (n + 1)) ts
  | n, deepest, .leftBracket :: ts => nestingOf (n + 1) (max deepest (n + 1)) ts
  | n, deepest, .rightBrace :: ts => nestingOf (n - 1) deepest ts
  | n, deepest, .rightBracket :: ts => nestingOf (n - 1) deepest ts
  | n, deepest, _ :: ts => nestingOf n deepest ts

/-- How deep brackets nest in a text. -/
def nesting (s : String) : Nat := ((tokens s).map (nestingOf 0 0)).getD 0

/-- Tokens that nest `d` deep, and leave no bracket open. -/
def Nests (us : List Token) (d : Nat) : Prop :=
  ∀ n deepest ts, n ≤ deepest → nestingOf n deepest (us ++ ts) = nestingOf n (max deepest (n + d)) ts

theorem nests_intercalate {α : Type} {xs : List α} {f : α → List Token} {g : α → Nat}
    (h : ∀ x ∈ xs, Nests (f x) (g x)) :
    Nests (List.intercalate [.comma] (xs.map f)) ((xs.map g).foldr max 0) := by
  induction xs with
  | nil =>
    intro n deepest ts hn
    simp [List.intercalate, hn]
  | cons x xs ih =>
    have hx := h x List.mem_cons_self
    have ih := ih fun y hy => h y (List.mem_cons_of_mem x hy)
    intro n deepest ts hn
    have hle : n ≤ max deepest (n + g x) := by omega
    cases xs with
    | nil => simpa using hx n deepest ts hn
    | cons y ys =>
      rw [List.map_cons, List.map_cons, List.intercalate_cons_cons]
      have hcomma (us : List Token) : nestingOf n (max deepest (n + g x)) (.comma :: us) =
          nestingOf n (max deepest (n + g x)) us := rfl
      simp only [List.append_assoc]
      rw [hx n _ _ hn, List.singleton_append, hcomma, ← List.map_cons, ih n _ ts hle]
      congr 1
      simp only [List.map_cons, List.foldr_cons]
      omega

theorem Nests.bracketed {us : List Token} {d : Nat} (h : Nests us d) :
    Nests (.leftBracket :: (us ++ [.rightBracket])) (d + 1) := by
  intro n deepest ts hn
  rw [List.cons_append, List.append_assoc, nestingOf, h (n + 1) _ _ (by omega),
    List.singleton_append, nestingOf]
  congr 1
  omega

theorem Nests.braced {us : List Token} {d : Nat} (h : Nests us d) :
    Nests (.leftBrace :: (us ++ [.rightBrace])) (d + 1) := by
  intro n deepest ts hn
  rw [List.cons_append, List.append_assoc, nestingOf, h (n + 1) _ _ (by omega),
    List.singleton_append, nestingOf]
  congr 1
  omega

theorem Writable.nests {j : Json} (hj : Writable j) : Nests j.written j.depth := by
  have scalar (k : Json) : Nests [.scalar k] 0 := by
    intro n deepest ts hn
    simp [nestingOf, hn]
  induction hj with
  | array js _ ih =>
    rw [written, depth]
    exact (nests_intercalate ih).bracketed
  | object ms _ _ ih =>
    rw [written, depth]
    refine (nests_intercalate fun m hm => ?_).braced
    intro n deepest ts hn
    exact ih m hm n deepest ts hn
  | _ =>
    simp only [written, depth]
    exact scalar _

/-- The brackets of a document nest in its text as they do in the document. -/
theorem nesting_render {j : Json} (hj : Writable j)
    (hx : ∀ x ∈ j.floats, x.isFinite → ReadsBack x) : nesting j.render = j.depth := by
  have h := hj.nests 0 0 [] (Nat.le_refl 0)
  rw [List.append_nil] at h
  rw [nesting, tokens_render hj hx, Option.map_some, Option.getD_some, h]
  simp [nestingOf]

end StraightLine.Json
