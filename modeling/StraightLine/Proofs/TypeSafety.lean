import StraightLine.Proofs.Progress

/-!
# Verified code does not go wrong

Verification knows the types of temps, and evaluation the cells that they hold. While a well-formed
function runs, every temp that has a type holds a cell of that type, and the address of every slot
leads to one that was made (`Eval.Frame.Fits`). Each instruction keeps this or ends in one of two
faults that verification lets through: it reads something undefined, or a slot in which nothing has
been stored (`Eval.Fault.Own`).

So a call in a module that verifies ends in four ways at most, apart from returning
(`Eval.call_expected`).
-/

namespace StraightLine

open Verify (Types OperandOk)

namespace Eval

/-! ### Faults -/

/-- The faults of well-formed code itself. -/
inductive Fault.Own : Fault → Prop
  | undefined : Own (.noMeaning .undef)
  | unstored (p : Nat) : Own (.unstored (.temp p))

/-- Something is given of which `P` holds, unless well-formed code is at fault. -/
def Gives {α : Type} (P : α → Prop) : Except Fault α → Prop
  | .ok a => P a
  | .error e => e.Own

theorem Gives.bind {α β : Type} {P : α → Prop} {Q : β → Prop} {x : Except Fault α}
    {k : α → Except Fault β} (hx : Gives P x) (hk : ∀ a, P a → Gives Q (k a)) :
    Gives Q (x >>= k) := by
  cases x with
  | error e => exact hx
  | ok a => exact hk a hx

/-- The failures that a call can end with in a module that verifies, with the function in which they
arise. -/
inductive Failure.Expected (m : Module) : Failure → Prop
  /-- Calls nest too deep. -/
  | depth (f : Function) (live : f ∈ m.live) (internal : f.isExternal = false) :
      Expected m ⟨f.name, .depthExceeded⟩
  /-- A function is declared that the host does not provide. -/
  | host (f : Function) (live : f ∈ m.live) (external : f.isExternal)
      (unknown : (f.name, f.arity) ∉ hostLibrary) : Expected m ⟨f.name, .noHost f.name f.arity⟩
  /-- Something undefined is read. -/
  | undefined (f : Function) (live : f ∈ m.live) (internal : f.isExternal = false) :
      Expected m ⟨f.name, .noMeaning .undef⟩
  /-- A slot is read before anything is stored there. -/
  | unstored (f : Function) (live : f ∈ m.live) (internal : f.isExternal = false) (p : Nat) :
      Expected m ⟨f.name, .unstored (.temp p)⟩

/-- A fault of the code of a function is expected. -/
theorem Failure.Expected.own {m : Module} {f : Function} (hlive : f ∈ m.live)
    (hext : f.isExternal = false) {e : Fault} (he : e.Own) : Expected m ⟨f.name, e⟩ := by
  cases he with
  | undefined => exact .undefined f hlive hext
  | unstored p => exact .unstored f hlive hext p

/-! ### Frames -/

/-- A frame in which temps hold what their types say, and slots are where their addresses lead. -/
structure Frame.Fits (Γ : Types) (fr : Frame) : Prop where
  separate : fr.Separate
  models : fr.toStore.Models Γ []

namespace Frame.Fits

variable {Γ : Types} {fr : Frame}

theorem float (h : fr.Fits Γ) {v : Operand} (hv : OperandOk Γ .double v) :
    Gives (fun _ => True) (fr.float v) := by
  by_cases hu : v = .undef
  · subst hu
    exact .undefined
  · obtain ⟨x, hx⟩ := h.models.float hv hu
    rw [Frame.float_eq_ok.2 hx]
    trivial

theorem flag (h : fr.Fits Γ) {v : Operand} (hv : OperandOk Γ .i1 v) :
    Gives (fun _ => True) (fr.flag v) := by
  by_cases hu : v = .undef
  · subst hu
    exact .undefined
  · obtain ⟨b, hb⟩ := h.models.flag hv hu
    rw [Frame.flag_eq_ok.2 hb]
    trivial

/-- What has the type of a slot is the address of one that was made. -/
theorem slot (h : fr.Fits Γ) {v : Operand} (hv : OperandOk Γ .slot v) :
    Gives (fun k => ∃ p, v = .temp p ∧ Γ.lookup p = some .slot ∧
      fr.temps.lookup p = some (.slot k) ∧ fr.checkSlot k = .ok ()) (fr.slot v) := by
  by_cases hu : v = .undef
  · subst hu
    exact .undefined
  · obtain ⟨p, c, hp⟩ := h.models.slot hv hu
    obtain ⟨rfl, k, hk, _⟩ := slot_toStore.1 hp
    rw [Frame.slot_eq_ok.2 ⟨p, rfl, hk⟩]
    exact ⟨p, rfl, hv, hk, h.separate.checkSlot hk⟩

theorem floats (h : fr.Fits Γ) {vs : List Operand} (hvs : ∀ v ∈ vs, OperandOk Γ .double v) :
    Gives (fun xs => xs.length = vs.length) (vs.mapM fr.float) := by
  induction vs with
  | nil => exact rfl
  | cons v vs ih =>
    rw [List.forall_mem_cons] at hvs
    rw [List.mapM_cons]
    apply (h.float hvs.1).bind
    intro x _
    apply (ih hvs.2).bind
    intro xs hxs
    exact congrArg (· + 1) hxs

/-- A new temp is given a value of its type. -/
theorem set (h : fr.Fits Γ) {A : Arities} {i : Instr} (hi : i.Ok A Γ) {r : Nat} {t : Ty}
    (hr : i.result? = some r) (ht : i.resultType? = some t) {c : Cell} (hc : ∀ k, c ≠ .slot k)
    (htype : (fr.held c).HasType t) : (fr.set r c).Fits (i.typesAfter Γ) := by
  refine ⟨h.separate.set hc, ?_⟩
  rw [toStore_set hc]
  exact h.models.put_result hi hr ht htype

/-- A new temp is given a slot of its own. -/
theorem allocate (h : fr.Fits Γ) {A : Arities} {r : Nat} {name : String}
    (hi : (Instr.alloca r .double name).Ok A Γ) :
    (fr.allocate r).Fits ((Instr.alloca r .double name).typesAfter Γ) := by
  refine ⟨h.separate.allocate r, ?_⟩
  rw [toStore_allocate h.separate]
  exact h.models.put_result hi rfl rfl rfl

theorem store (h : fr.Fits Γ) {p k : Nat} (hk : fr.temps.lookup p = some (.slot k))
    (hp : Γ.lookup p = some .slot) (x : Float) : (fr.store k x).Fits Γ := by
  refine ⟨h.separate.store k x, ?_⟩
  rw [toStore_store h.separate hk]
  have hslot : fr.toStore p = some (.slot (fr.contents? k)) := by simp [toStore, hk, Frame.held]
  exact ⟨(h.models.put_slot hslot hp x).typed, by simp⟩

/-- **An instruction in order keeps temps to their types**, or reads something undefined or an empty
slot. -/
theorem step (h : fr.Fits Γ) {A : Arities} {i : Instr} (hi : i.Ok A Γ) (hp : i.isPlain) :
    Gives (fun fr' => fr'.Fits (i.typesAfter Γ)) (fr.step i) := by
  have wants {t : Ty} {v : Operand} (hv : (t, v) ∈ i.wants) : OperandOk Γ t v := hi.operands _ hv
  cases i with
  | alloca r t name =>
    obtain rfl : t = .double := hi.shaped
    exact h.allocate hi
  | load r p t =>
    obtain rfl : t = .double := hi.shaped
    apply (h.slot (wants (by simp [Instr.wants]))).bind
    rintro k ⟨q, rfl, _, _, hk⟩
    rw [hk]
    cases fr.contents? k with
    | none => exact .unstored q
    | some x => exact h.set hi rfl rfl (by simp) rfl
  | store v p =>
    apply (h.slot (wants (v := p) (by simp [Instr.wants]))).bind
    rintro k ⟨q, rfl, hq, hlookup, hk⟩
    apply (h.float (wants (v := v) (by simp [Instr.wants]))).bind
    intro x _
    rw [hk]
    exact h.store hlookup hq x
  | arith r op a b =>
    apply (h.float (wants (v := a) (by simp [Instr.wants]))).bind
    intro x _
    apply (h.float (wants (v := b) (by simp [Instr.wants]))).bind
    intro y _
    exact h.set hi rfl rfl (by simp) rfl
  | compare r p a b =>
    apply (h.float (wants (v := a) (by simp [Instr.wants]))).bind
    intro x _
    apply (h.float (wants (v := b) (by simp [Instr.wants]))).bind
    intro y _
    exact h.set hi rfl rfl (by simp) rfl
  | widen r v =>
    apply (h.flag (wants (v := v) (by simp [Instr.wants]))).bind
    intro b _
    exact h.set hi rfl rfl (by simp) rfl
  | call r f args => cases hp
  | ret v => cases hp

end Frame.Fits

/-! ### Bodies -/

/-- An answer that is a number, or a failure of which `E` holds. -/
def EndsIn (E : Failure → Prop) : Answer → Prop
  | .ok _ _ => True
  | .error e _ => E e

/-- A computation inside a function, followed by others. -/
theorem Gives.endsIn {α : Type} {P : α → Prop} {x : Except Fault α} (hx : Gives P x) {name : String}
    {E : Failure → Prop} (hown : ∀ e, e.Own → E ⟨name, e⟩) {k : α → Run Float} {out : String}
    (hk : ∀ a, P a → EndsIn E (k a out)) : EndsIn E ((within name x >>= k) out) := by
  cases x with
  | error e => exact hown e hx
  | ok a => exact hk a hx

/-- **Typed code that ends in a return does not go wrong**, if the functions that it calls do
not. -/
theorem Frame.Fits.body {Γ : Types} {fr : Frame} (h : fr.Fits Γ) {A : Arities} {is : List Instr}
    (ht : Code.Typed A Γ is) (hc : Code.Closed is) {name : String} {callee : Callee}
    {E : Failure → Prop} (hown : ∀ e, e.Own → E ⟨name, e⟩)
    (hcallee : ∀ g xs out, A g = some xs.length → EndsIn E (callee g xs out)) (out : String) :
    EndsIn E (Eval.body callee name fr is out) := by
  induction is generalizing Γ fr out with
  | nil => cases hc
  | cons i rest ih =>
    obtain ⟨hi, hrest⟩ := ht
    by_cases hp : i.isPlain
    · rw [body_plain hp]
      apply (h.step hi hp).endsIn hown
      intro fr' hfr'
      have hterm := Instr.isTerminator_of_isPlain hp
      exact ih hfr' hrest (by simpa [Code.Closed, hterm] using hc) out
    · cases i with
      | ret v =>
        have hv := h.float (hi.operands (.double, v) (by simp [Instr.wants]))
        rw [Eval.body]
        cases hx : fr.float v with
        | ok x => trivial
        | error e =>
          rw [hx] at hv
          exact hown e hv
      | call r f args =>
        obtain ⟨g, rfl, hg⟩ := hi.shaped
        have hargs : ∀ v ∈ args, OperandOk Γ .double v := by
          intro v hv
          exact hi.operands (.double, v) (by simpa [Instr.wants] using hv)
        rw [Eval.body]
        apply (h.floats hargs).endsIn hown
        intro xs hxs
        have hcall := hcallee g xs out (by rw [hxs]; exact hg)
        change EndsIn E (EStateM.bind (callee g xs) _ out)
        unfold EStateM.bind
        cases hanswer : callee g xs out with
        | ok x out' =>
          have hset := h.set (r := r) (c := .float x) hi rfl rfl (by simp) rfl
          exact ih hset hrest hc out'
        | error e out' =>
          rw [hanswer] at hcall
          exact hcall
      | _ => simp [Instr.isPlain] at hp

/-! ### Calls -/

/-- A function of the host returns, unless there is none with the name and the arity. -/
theorem host_endsIn {E : Failure → Prop} {name : String} {args : List Float}
    (hunknown : (name, args.length) ∉ hostLibrary → E ⟨name, .noHost name args.length⟩)
    (out : String) : EndsIn E (host name args out) := by
  unfold host
  split
  · trivial
  · trivial
  · trivial
  · trivial
  next hprint hputchar hmax hmin =>
    apply hunknown
    intro hmem
    simp only [hostLibrary, List.mem_cons, Prod.mk.injEq, List.not_mem_nil, or_false] at hmem
    rcases hmem with ⟨rfl, hl⟩ | ⟨rfl, hl⟩ | ⟨rfl, hl⟩ | ⟨rfl, hl⟩
    · obtain ⟨x, rfl⟩ := List.length_eq_one_iff.1 hl
      exact hprint x rfl rfl
    · obtain ⟨x, rfl⟩ := List.length_eq_one_iff.1 hl
      exact hputchar x rfl rfl
    · obtain ⟨a, b, rfl⟩ := List.length_eq_two.1 hl
      exact hmax a b rfl rfl
    · obtain ⟨a, b, rfl⟩ := List.length_eq_two.1 hl
      exact hmin a b rfl rfl

/-- A well-formed function that is entered with as many arguments as it takes does not go wrong. -/
theorem enter_endsIn {A : Arities} {f : Function} (hf : f.WellFormed A)
    (hext : f.isExternal = false) {args : List Float} (hl : f.arity = args.length)
    {callee : Callee} {E : Failure → Prop}
    (hown : ∀ e, e.Own → E ⟨f.name, e⟩)
    (hcallee : ∀ g xs out, A g = some xs.length → EndsIn E (callee g xs out)) (out : String) :
    EndsIn E (enter callee f args out) := by
  obtain ⟨b, bs, hbs⟩ : ∃ b bs, f.blocks = b :: bs := by
    apply List.exists_cons_of_ne_nil
    intro hnil
    simp [hf.bodiless.2 hnil] at hext
  have hfits : (Frame.ofArgs f.params args).Fits f.paramTypes := by
    refine ⟨Frame.separate_ofArgs _ _, ?_⟩
    rw [Frame.toStore_ofArgs (hf.numbered hext) hl]
    exact Store.models_ofArgs (hf.numbered hext) hl.symm
  -- Only the first block runs, and the types of its temps do not depend on the others.
  have htyped : Code.Typed A f.paramTypes (b.instrs ++ bs.flatMap Block.instrs) := by
    simpa [Function.instrs, hbs] using hf.typed
  rw [enter, Function.entry?, hbs]
  exact hfits.body (Code.typed_append.1 htyped).1 (hf.closed b (by simp [hbs])) hown hcallee out

variable {m : Module}

/-- However deep calls may nest, those in a module that verifies end as expected. -/
theorem callAt_endsIn (hv : m.verify = .ok ())
    (hready : ∀ f ∈ m.live, f.isExternal = false → f.stage = .verified) (depth : Nat)
    {name : String} {args : List Float} (hname : m.arities name = some args.length)
    (out : String) :
    EndsIn (Failure.Expected m) (callAt m depth name args out) := by
  -- A body calls functions one level down, so the induction is on the depth.
  induction depth using Nat.strongRecOn generalizing name args out with
  | ind depth ih =>
    obtain ⟨f, hf, harity⟩ := Option.map_eq_some_iff.1 hname
    obtain ⟨hlive, rfl⟩ := Module.mem_live_of_find? hf
    rw [callAt_of_find?_some hf, if_neg (by simpa using harity)]
    cases hext : f.isExternal with
    | true =>
      apply host_endsIn
      intro hunknown
      rw [← harity] at hunknown ⊢
      exact .host f hlive hext hunknown
    | false =>
      rw [if_neg (by simp), if_neg (by simp [hready f hlive hext])]
      cases depth with
      | zero => exact .depth f hlive hext
      | succ depth =>
        have hwf := (Module.verify_eq_ok.1 hv).2 f hlive
        apply enter_endsIn hwf hext harity
        · intro e he
          exact .own hlive hext he
        · intro g xs out hg
          exact ih depth (Nat.lt_succ_self depth) hg out

/-- **Verification is sound for evaluation.** In a module that verifies, with all bodies marked as
verified, to call a live function with as many arguments as it takes gives a number, or one of four
failures: calls nest too deep, a declared function is none of the host, something undefined is read,
or a slot is read before anything is stored there. -/
theorem call_expected (hv : m.verify = .ok ())
    (hready : ∀ f ∈ m.live, f.isExternal = false → f.stage = .verified) {f : Function}
    (hf : f ∈ m.live) {args : List Float} (hl : args.length = f.arity) :
    (∃ x out, call m f.name args = (.ok x, out)) ∨
      ∃ e out, call m f.name args = (.error e, out) ∧ e.Expected m := by
  have hname : m.arities f.name = some args.length := by
    rw [Module.arities_of_mem_live (Module.verify_eq_ok.1 hv).1 hf, hl]
  have hends := callAt_endsIn hv hready maxDepth hname ""
  unfold call
  cases hcall : callAt m maxDepth f.name args "" with
  | ok x out => exact .inl ⟨x, out, rfl⟩
  | error e out =>
    rw [hcall] at hends
    exact .inr ⟨e, out, rfl, hends⟩

/-- A module in which every expected failure occurs: a function calls itself, one calls a declared
function that the host does not provide, one returns something undefined, and one reads a slot at
once. -/
def hazards : Module where
  name := "hazards"
  functions := [
    Function.external "sin" 1,
    { name := "loop", stage := .verified, blocks := [{
        id := 0, name := "entry", instrs := [.call 0 (.function "loop") [], .ret (.temp 0)] }] },
    { name := "sine", params := [(0, "x")], stage := .verified, blocks := [{
        id := 1, name := "entry"
        instrs := [.call 1 (.function "sin") [.temp 0], .ret (.temp 1)] }] },
    { name := "vague", stage := .verified, blocks := [{
        id := 2, name := "entry", instrs := [.ret .undef] }] },
    { name := "hasty", stage := .verified, blocks := [{
        id := 3, name := "entry"
        instrs := [.alloca 0 .double "y", .load 1 (.temp 0) .double, .ret (.temp 1)] }] },
    { name := "same", params := [(0, "x")], stage := .verified, blocks := [{
        id := 4, name := "entry", instrs := [.ret (.temp 0)] }] }]

theorem call_expected_hazards :
    (∀ f ∈ hazards.live, ∀ args : List Float, args.length = f.arity →
      (∃ x out, call hazards f.name args = (.ok x, out)) ∨
        ∃ e out, call hazards f.name args = (.error e, out) ∧ e.Expected hazards) ∧
    call hazards "loop" [] = (.error ⟨"loop", .depthExceeded⟩, "") ∧
    call hazards "sine" [0.5] = (.error ⟨"sin", .noHost "sin" 1⟩, "") ∧
    call hazards "vague" [] = (.error ⟨"vague", .noMeaning .undef⟩, "") ∧
    call hazards "hasty" [] = (.error ⟨"hasty", .unstored (.temp 0)⟩, "") ∧
    call hazards "same" [2.5] = (.ok 2.5, "") := by
  have hv : hazards.verify = .ok () := by decide +kernel
  have hready : ∀ f ∈ hazards.live, f.isExternal = false → f.stage = .verified := by decide +kernel
  refine ⟨?_, by decide +kernel, by decide +kernel, by decide +kernel, by decide +kernel,
    by decide +kernel⟩
  intro f hf args hl
  exact call_expected hv hready hf hl

end Eval

end StraightLine
