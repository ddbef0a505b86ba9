import StraightLine.Proofs.NormalForms

/-!
# Live code

The code that counts is what acts (stores, calls and returns) and, from there backwards, what
defines the temps that it uses (`DeadCode.Live`). Sweeps take unused definitions away until there
are none; what counts never goes (`DeadCode.live_sweep`). In code that verifies, a definition comes
before its uses, so nothing is left in the end that does not count (`DeadCode.live_of_allUsed`).
-/

namespace StraightLine

open Verify (Types)

/-- What reads a temp comes after its definition. -/
theorem Code.Typed.mem_of_uses {A : Arities} {Γ : Types} {before after : List Instr} {i j : Instr}
    {r : Nat} (h : Code.Typed A Γ (before ++ i :: after)) (hr : i.result? = some r)
    (hj : j ∈ before ++ i :: after) (huses : r ∈ j.uses) : j ∈ after := by
  obtain ⟨hbefore, hi, _⟩ := Code.typed_append.1 h
  have hfresh := hi.fresh r hr
  rcases List.mem_append.1 hj with hj | hj
  · obtain ⟨t, hw⟩ := Instr.exists_mem_wants (hbefore.shaped hj) (Instr.mem_uses.1 huses)
    cases hfresh.symm.trans (hbefore.operandOk hj hw)
  · rcases List.mem_cons.1 hj with rfl | hj
    · obtain ⟨t, hw⟩ := Instr.exists_mem_wants hi.shaped (Instr.mem_uses.1 huses)
      cases hfresh.symm.trans (hi.operands _ hw)
    · exact hj

namespace DeadCode

variable {A : Arities} {f : Function} {i : Instr}

/-- The least set of instructions of a function with its stores, calls and returns and, with each
instruction, the definitions of the temps that it uses. -/
inductive Live (f : Function) : Instr → Prop
  | store {v p : Operand} (mem : .store v p ∈ f.instrs) : Live f (.store v p)
  | call {r : Nat} {c : Operand} {args : List Operand} (mem : .call r c args ∈ f.instrs) :
    Live f (.call r c args)
  | ret {v : Operand} (mem : .ret v ∈ f.instrs) : Live f (.ret v)
  | definition {i j : Instr} {r : Nat} (user : Live f i) (uses : r ∈ i.uses)
    (mem : j ∈ f.instrs) (defines : j.result? = some r) : Live f j

theorem live_of_isPure_eq_false (hi : i ∈ f.instrs) (hpure : i.isPure = false) : Live f i := by
  cases i with
  | store v p => exact .store hi
  | call r c args => exact .call hi
  | ret v => exact .ret hi
  | _ => cases hpure

theorem Live.mem (h : Live f i) : i ∈ f.instrs := by
  cases h <;> assumption

/-- What counts in a part of a function counts in the whole. -/
theorem Live.mono {g : Function} (h : Live g i) (hsub : ∀ i ∈ g.instrs, i ∈ f.instrs) :
    Live f i := by
  induction h with
  | store mem => exact .store (hsub _ mem)
  | call mem => exact .call (hsub _ mem)
  | ret mem => exact .ret (hsub _ mem)
  | definition _ uses mem defines ih => exact .definition ih uses (hsub _ mem) defines

/-- What counts is used or acts, so it is not dead. -/
theorem Live.isDead_eq_false (h : Live f i) : isDead (used f) i = false := by
  refine isDead_eq_false_iff.2 fun hpure => ?_
  cases h with
  | definition user uses _ defines =>
    exact ⟨_, defines, List.mem_flatMap.2 ⟨_, user.mem, uses⟩⟩
  | _ => cases hpure

/-- **A sweep takes nothing away that counts.** -/
theorem live_sweep : Live (sweep f) i ↔ Live f i := by
  have kept {j : Instr} (hj : j ∈ f.instrs) (hlive : Live f j) : j ∈ (sweep f).instrs := by
    rw [instrs_sweep, List.mem_filter, hlive.isDead_eq_false]
    exact ⟨hj, rfl⟩
  constructor
  · intro h
    refine h.mono fun i hi => ?_
    rw [instrs_sweep] at hi
    exact (List.mem_filter.1 hi).1
  · intro h
    induction h with
    | store mem => exact .store (kept mem (.store mem))
    | call mem => exact .call (kept mem (.call mem))
    | ret mem => exact .ret (kept mem (.ret mem))
    | definition user uses mem defines ih =>
      exact .definition ih uses (kept mem (.definition user uses mem defines)) defines

/-- **Where every definition is used, all code counts**: backwards from the end, what is used is
used by something that counts. -/
theorem live_of_allUsed (hf : f.WellFormed A) (h : AllUsed f) {after : List Instr}
    (hafter : after <:+ f.instrs) : ∀ i ∈ after, Live f i := by
  induction after with
  | nil => simp
  | cons i after ih =>
    obtain ⟨before, hsplit⟩ := hafter
    have hi : i ∈ f.instrs := hsplit ▸ by simp
    have hlive := ih ⟨before ++ [i], by simpa using hsplit⟩
    refine List.forall_mem_cons.2 ⟨?_, hlive⟩
    cases hpure : i.isPure with
    | false => exact live_of_isPure_eq_false hi hpure
    | true =>
      obtain ⟨r, hr, hused⟩ := h i hi hpure
      obtain ⟨j, hj, huses⟩ := List.mem_flatMap.1 hused
      have htyped := hf.typed
      rw [← hsplit] at htyped hj
      exact .definition (hlive j (htyped.mem_of_uses hr hj huses)) huses hi hr

/-! ### All sweeps -/

open scoped Classical in
/-- The code that counts can be taken out of a function before or after a sweep. -/
theorem filter_sweep (f : Function) :
    (sweep f).mapBodies (·.filter fun i => Live (sweep f) i) =
      f.mapBodies (·.filter fun i => Live f i) := by
  have hfilter (is : List Instr) : (is.filter fun i => !isDead (used f) i).filter
      (fun i => Live (sweep f) i) = is.filter fun i => Live f i := by
    rw [List.filter_filter]
    refine List.filter_congr fun i _ => ?_
    by_cases hlive : Live f i
    · simp [live_sweep, hlive, hlive.isDead_eq_false]
    · simp [live_sweep, hlive]
  simp [sweep, Function.mapBodies, ← hfilter]

open scoped Classical in
theorem sweepAll_eq (hf : f.WellFormed A) :
    sweepAll f = f.mapBodies (·.filter fun i => Live f i) := by
  fun_induction sweepAll f with
  | case1 f _ ih => rw [ih (sweep_refines hf).wellFormed, filter_sweep]
  | case2 f h =>
    refine (Function.mapBodies_eq_self fun b hb => List.filter_eq_self.2 fun i hi => ?_).symm
    have hi : i ∈ f.instrs := List.mem_flatMap.2 ⟨b, hb, hi⟩
    simpa using live_of_allUsed hf (allUsed_of_size h) (List.suffix_refl _) i hi

/-- Each sweep but the last takes something away. -/
theorem exists_iterate_sweep (f : Function) : ∃ n ≤ f.size, sweep^[n] f = sweepAll f := by
  fun_induction sweepAll f with
  | case1 f hlt ih =>
    obtain ⟨n, hn, hiterate⟩ := ih
    exact ⟨n + 1, by omega, hiterate⟩
  | case2 f _ => exact ⟨0, Nat.zero_le _, rfl⟩

open scoped Classical in
/-- **Exactly the live code is left.** In a function that verifies, the code that is left is, block
by block and in its order, that of the least set with all stores, calls and returns of the function
and with the definitions of what it uses. No more sweeps than the function has instructions lead
there, and another one changes nothing. -/
theorem run_eq_live {m : Module} (hf : m.verifyFunction f = .ok ()) :
    (run f).1 = f.mapBodies (·.filter fun i => Live f i) ∧
      ∃ n ≤ f.size, sweep^[n] f = (run f).1 ∧ sweep (run f).1 = (run f).1 := by
  refine ⟨sweepAll_eq (Module.verifyFunction_eq_ok.1 hf), ?_⟩
  obtain ⟨n, hn, hiterate⟩ := exists_iterate_sweep f
  exact ⟨n, hn, hiterate, sweep_of_allUsed (run_allUsed f)⟩

/-- A product that nothing uses, of a sum that nothing else uses, next to a call whose result is not
used. -/
def unused : Module where
  name := "unused"
  functions := [
    Function.external "print" 1,
    { name := "f", params := [(0, "x")], stage := .terminated
      blocks := [{
        id := 0, name := "entry"
        instrs := [
          .arith 1 .add (.temp 0) (.temp 0), .arith 2 .mul (.temp 1) (.temp 1),
          .arith 3 .sub (.temp 0) (.float 1.5), .call 4 (.function "print") [.temp 3],
          .ret (.temp 0)] }] }]

open scoped Classical in
/-- The product goes in one sweep and the sum in the next; the call stays. -/
theorem run_eq_live_unused :
    let f := unused.functions[1]
    unused.verifyFunction f = .ok () ∧
      (run f).1 = f.mapBodies (·.filter fun i => Live f i) ∧
      (run f).1.instrs = [
        .arith 3 .sub (.temp 0) (.float 1.5), .call 4 (.function "print") [.temp 3],
        .ret (.temp 0)] := by
  intro f
  have hf : unused.verifyFunction f = .ok () := by decide +kernel
  exact ⟨hf, (run_eq_live hf).1, by decide +kernel⟩

end DeadCode

end StraightLine
