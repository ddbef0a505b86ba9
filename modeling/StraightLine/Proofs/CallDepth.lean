import StraightLine.Proofs.TypeSafety

/-!
# How deep calls nest

Code has no branches, so a function that is entered makes every call of its entry block. A module in
which nothing else can go wrong (`Module.Runnable`) is therefore evaluated or not by the shape of
its calls alone: a call returns exactly when every chain of calls that starts at the function is
short enough (`Module.Shallow`), and fails for its depth otherwise. Functions of the host are not
links of such chains.
-/

namespace StraightLine

open Relation (ReflTransGen TransGen)

/-! ### Chains of calls -/

namespace Module

/-- The entry block of `f` calls `g`, which is not of the host. -/
def Calls (m : Module) (f g : Function) : Prop :=
  g.isExternal = false ∧ ∃ b, f.entry? = some b ∧
    ∃ i ∈ b.instrs, ∃ name, i.callee? = some name ∧ m.find? name = some g

/-- Every chain of calls that starts at `f` has at most `d` functions. -/
def Shallow (m : Module) (d : Nat) (f : Function) : Prop :=
  ∀ fs, List.IsChain m.Calls (f :: fs) → (f :: fs).length ≤ d

variable {m : Module} {f g : Function} {d : Nat}

theorem not_shallow_zero (m : Module) (f : Function) : ¬ m.Shallow 0 f := by
  intro h
  simpa using h [] (.singleton f)

/-- The chains from a function are those from the functions that it calls, and one longer. -/
theorem shallow_succ_iff : m.Shallow (d + 1) f ↔ ∀ g, m.Calls f g → m.Shallow d g := by
  constructor
  · intro h g hg fs hfs
    have hlength := h (g :: fs) (.cons_cons hg hfs)
    simpa using hlength
  · intro h fs hfs
    cases hfs with
    | singleton => simp
    | cons_cons hg hfs =>
      have hlength := h _ hg _ hfs
      simpa using hlength

/-- From a function that reaches a cycle of calls there are chains of every length. -/
theorem not_shallow_of_cycle (hreach : ReflTransGen m.Calls f g) (hcycle : TransGen m.Calls g g)
    (d : Nat) : ¬ m.Shallow d f := by
  induction d generalizing f with
  | zero => exact not_shallow_zero m f
  | succ d ih =>
    intro h
    obtain ⟨k, hk, hrest⟩ : ∃ k, m.Calls f k ∧ ReflTransGen m.Calls k g := by
      rcases hreach.cases_head with rfl | hstep
      · exact TransGen.head'_iff.1 hcycle
      · exact hstep
    exact ih hrest (shallow_succ_iff.1 h k hk)

/-- A module that verifies, with all bodies marked as verified, in which nothing is undefined, slots
are filled before they are read and the host provides what is declared. -/
structure Runnable (m : Module) : Prop where
  verifies : m.verify = .ok ()
  ready : ∀ f ∈ m.live, f.isExternal = false → f.stage = .verified
  defined : ∀ f ∈ m.live, ∀ i ∈ f.instrs, .undef ∉ i.operands
  /-- Before a slot is read something is stored there, in the same block. -/
  stored : ∀ f ∈ m.live, ∀ b ∈ f.blocks, ∀ before r p t rest,
    b.instrs = before ++ .load r p t :: rest → ∃ v, .store v p ∈ before
  provided : ∀ f ∈ m.live, f.isExternal → (f.name, f.arity) ∈ Eval.hostLibrary

end Module

/-! ### Code that fills its slots -/

namespace Code

theorem mem_fills {p : Nat} {v : Operand} {is : List Instr} (h : .store v (.temp p) ∈ is)
    (S : List Nat) : p ∈ fills S is := by
  induction is using List.reverseRecOn with
  | nil => cases h
  | append_singleton is i ih =>
    rw [fills_concat]
    rcases List.mem_append.1 h with h | h
    · have hp := ih h
      unfold Instr.fills
      split
      · exact List.mem_cons_of_mem _ hp
      · exact hp
    · rw [← List.mem_singleton.1 h]
      exact List.mem_cons_self

/-- Code in which every slot that is read was written before is safe. -/
theorem filled_of_stored {is : List Instr} (hdefined : ∀ i ∈ is, .undef ∉ i.operands)
    (hstored : ∀ before r p t rest, is = before ++ .load r p t :: rest → ∃ v, .store v p ∈ before) :
    Filled [] is := by
  induction is using List.reverseRecOn with
  | nil => trivial
  | append_singleton is i ih =>
    refine filled_concat.2 ⟨ih (fun j hj => hdefined j (by simp [hj])) ?_, ?_, ?_⟩
    · rintro before r p t rest rfl
      exact hstored before r p t (rest ++ [i]) (by simp)
    · exact hdefined i (by simp)
    · rintro r p t rfl
      obtain ⟨v, hv⟩ := hstored is r (.temp p) t [] rfl
      exact mem_fills hv []

end Code

/-! ### Code and the calls in it -/

theorem Instr.eq_call_of_callee? {i : Instr} {name : String} (h : i.callee? = some name) :
    ∃ r args, i = .call r (.function name) args := by
  unfold callee? at h
  split at h
  next r g args =>
    cases h
    exact ⟨r, args, rfl⟩
  next => cases h

theorem Eval.EndsIn.imp {E E' : Failure → Prop} {a : Answer} (h : EndsIn E a)
    (hE : ∀ e, E e → E' e) : EndsIn E' a := by
  cases a with
  | ok x out => trivial
  | error e out => exact hE e h

namespace Store

variable {callee : Callee} {st : Store} {is : List Instr} {out : String}

theorem length_of_mapM {vs : List Operand} {xs : List Float} (h : vs.mapM st.float = some xs) :
    xs.length = vs.length := by
  induction vs generalizing xs with
  | nil =>
    cases h
    rfl
  | cons v vs ih =>
    simp only [List.mapM_cons, bind, Option.bind_eq_some_iff, pure, Option.some.injEq] at h
    obtain ⟨x, _, ys, hys, rfl⟩ := h
    rw [List.length_cons, List.length_cons, ih hys]

/-- Code ends as the functions do that it calls. -/
theorem run_endsIn {E : Eval.Failure → Prop} {a : Answer} (h : st.run callee is out = some a)
    (hcallee : ∀ r g args, .call r (.function g) args ∈ is → ∀ xs out, xs.length = args.length →
      Eval.EndsIn E (callee g xs out)) : Eval.EndsIn E a := by
  induction is generalizing st out with
  | nil => cases h
  | cons i rest ih =>
    have ih {st : Store} {out : String} (h : st.run callee rest out = some a) : Eval.EndsIn E a :=
      ih h fun r g args hmem => hcallee r g args (List.mem_cons_of_mem i hmem)
    by_cases hi : i.isPlain
    · rw [run_plain hi, Option.bind_eq_some_iff] at h
      obtain ⟨w, _, h⟩ := h
      exact ih h
    · cases i with
      | ret v =>
        obtain ⟨x, _, rfl⟩ := Option.map_eq_some_iff.1 h
        trivial
      | call r f args =>
        cases f with
        | function g =>
          rw [run_call, Option.bind_eq_some_iff] at h
          obtain ⟨xs, hxs, h⟩ := h
          have hg := hcallee r g args List.mem_cons_self xs out (length_of_mapM hxs)
          cases hanswer : callee g xs out with
          | ok y out' =>
            rw [hanswer] at h
            exact ih h
          | error e out' =>
            rw [hanswer] at h hg
            cases h
            exact hg
        | _ => cases h
      | _ => simp [Instr.isPlain] at hi

/-- When closed code returns, every call in it has returned. -/
theorem called_of_run {x : Float} {out' : String} (hclosed : Code.Closed is)
    (h : st.run callee is out = some (.ok x out')) {r : Nat} {g : String} {args : List Operand}
    (hmem : .call r (.function g) args ∈ is) :
    ∃ xs out y out', xs.length = args.length ∧ callee g xs out = .ok y out' := by
  induction is generalizing st out with
  | nil => cases hmem
  | cons i rest ih =>
    by_cases hi : i.isPlain
    · have hrest : Code.Closed rest := by
        simpa [Code.Closed, Instr.isTerminator_of_isPlain hi] using hclosed
      rw [run_plain hi, Option.bind_eq_some_iff] at h
      obtain ⟨w, _, h⟩ := h
      refine ih hrest h ((List.mem_cons.1 hmem).resolve_left ?_)
      rintro rfl
      cases hi
    · cases i with
      | ret v =>
        obtain rfl : rest = [] := hclosed
        simp at hmem
      | call r' f args' =>
        cases f with
        | function g' =>
          rw [run_call, Option.bind_eq_some_iff] at h
          obtain ⟨xs, hxs, h⟩ := h
          cases hanswer : callee g' xs out with
          | error e out₁ =>
            rw [hanswer] at h
            cases h
          | ok y out₁ =>
            rw [hanswer] at h
            rcases List.mem_cons.1 hmem with heq | hmem
            · cases heq
              exact ⟨xs, out, y, out₁, length_of_mapM hxs, hanswer⟩
            · exact ih hclosed h hmem
        | _ => cases h
      | _ => simp [Instr.isPlain] at hi

end Store

/-! ### Calls -/

namespace Module.Runnable

variable {m : Module} {f g : Function}

/-- The entry block of a function with a body is in order. -/
theorem entry (hm : m.Runnable) (hf : f ∈ m.live) (hext : f.isExternal = false) :
    ∃ b, f.entry? = some b ∧ Code.Typed m.arities f.paramTypes b.instrs ∧ Code.Closed b.instrs ∧
      Code.Filled [] b.instrs := by
  have hwf := (verify_eq_ok.1 hm.verifies).2 f hf
  obtain ⟨b, bs, hbs⟩ : ∃ b bs, f.blocks = b :: bs := by
    apply List.exists_cons_of_ne_nil
    intro hnil
    simp [hwf.bodiless.2 hnil] at hext
  have hinstrs : f.instrs = b.instrs ++ bs.flatMap Block.instrs := by
    simp [Function.instrs, hbs]
  have hb : b ∈ f.blocks := by simp [hbs]
  refine ⟨b, by simp [Function.entry?, hbs], ?_, hwf.closed b hb, Code.filled_of_stored ?_ ?_⟩
  · have htyped := hwf.typed
    rw [hinstrs] at htyped
    exact (Code.typed_append.1 htyped).1
  · intro i hi
    exact hm.defined f hf i (by simp [hinstrs, hi])
  · exact hm.stored f hf b hb

/-- A function that is entered gives the answer of its entry block. -/
theorem enter_eq (hm : m.Runnable) (hf : f ∈ m.live) (hext : f.isExternal = false)
    {args : List Float} (hl : f.arity = args.length) {b : Block} (hb : f.entry? = some b)
    (callee : Callee) (out : String) :
    (Store.ofArgs args).run callee b.instrs out = some (Eval.enter callee f args out) := by
  have hnumbered := ((verify_eq_ok.1 hm.verifies).2 f hf).numbered hext
  obtain ⟨b', hb', htyped, hclosed, hfilled⟩ := hm.entry hf hext
  obtain rfl : b' = b := Option.some.inj (hb'.symm.trans hb)
  obtain ⟨a, ha⟩ := Option.isSome_iff_exists.1
    ((Store.models_ofArgs hnumbered hl.symm).run htyped hclosed hfilled callee out)
  have hanswer : f.answer? callee args out = some a := by
    rw [Function.answer?, hb, Option.bind_some, ha]
  rw [ha, Eval.enter_of_answer hnumbered hl hanswer]

/-- A call in the entry block goes to a function of the module that takes as many arguments. -/
theorem callee (hm : m.Runnable) (hf : f ∈ m.live) (hext : f.isExternal = false) {b : Block}
    (hb : f.entry? = some b) {r : Nat} {name : String} {args : List Operand}
    (hcall : .call r (.function name) args ∈ b.instrs) :
    ∃ g, m.find? name = some g ∧ g.arity = args.length := by
  obtain ⟨b', hb', htyped, _⟩ := hm.entry hf hext
  obtain rfl : b' = b := Option.some.inj (hb'.symm.trans hb)
  obtain ⟨k, hk, hg⟩ := htyped.shaped hcall
  cases hk
  exact Option.map_eq_some_iff.1 hg

/-- To call a function of the host is to run it, and it returns. -/
theorem callAt_external (hm : m.Runnable) (hf : f ∈ m.live) (hext : f.isExternal)
    {args : List Float} (hl : f.arity = args.length) (d : Nat) (out : String) :
    Eval.EndsIn (fun _ => False) (Eval.callAt m d f.name args out) := by
  have hfind := find?_of_mem_live (verify_eq_ok.1 hm.verifies).1 hf
  rw [Eval.callAt_of_find?_some hfind, if_neg (by simp [hl]), if_pos hext]
  apply Eval.host_endsIn
  intro hunknown
  rw [← hl] at hunknown
  exact hunknown (hm.provided f hf hext)

/-- To call a function with a body is to enter it, one level down. -/
theorem callAt_internal (hm : m.Runnable) (hf : f ∈ m.live) (hext : f.isExternal = false)
    {args : List Float} (hl : f.arity = args.length) :
    Eval.callAt m 0 f.name args = throw ⟨f.name, .depthExceeded⟩ ∧
      ∀ d, Eval.callAt m (d + 1) f.name args = Eval.enter (Eval.callAt m d) f args := by
  have hfind := find?_of_mem_live (verify_eq_ok.1 hm.verifies).1 hf
  have hstage := hm.ready f hf hext
  constructor
  · rw [Eval.callAt_of_find?_some hfind]
    simp [hl, hext, hstage]
  · intro d
    rw [Eval.callAt_of_find?_some hfind]
    simp [hl, hext, hstage]

/-- A call returns, or fails because it nests too deep. -/
theorem callAt_endsIn (hm : m.Runnable) (hf : f ∈ m.live) {args : List Float}
    (hl : f.arity = args.length) (d : Nat) (out : String) :
    Eval.EndsIn (fun e => e.fault = .depthExceeded) (Eval.callAt m d f.name args out) := by
  induction d generalizing f args out with
  | zero =>
    cases hext : f.isExternal with
    | true => exact (hm.callAt_external hf hext hl 0 out).imp fun _ h => h.elim
    | false =>
      rw [(hm.callAt_internal hf hext hl).1]
      exact rfl
  | succ d ih =>
    cases hext : f.isExternal with
    | true => exact (hm.callAt_external hf hext hl (d + 1) out).imp fun _ h => h.elim
    | false =>
      obtain ⟨b, hb, _⟩ := hm.entry hf hext
      rw [(hm.callAt_internal hf hext hl).2]
      apply Store.run_endsIn (hm.enter_eq hf hext hl hb _ out)
      intro r name args' hcall xs out' hxs
      obtain ⟨g, hg, harity⟩ := hm.callee hf hext hb hcall
      obtain ⟨hlive, rfl⟩ := mem_live_of_find? hg
      exact ih hlive (harity.trans hxs.symm) out'

/-- **A call returns exactly when no chain of calls is too long.** -/
theorem callAt_returns_iff (hm : m.Runnable) (hf : f ∈ m.live) (hext : f.isExternal = false)
    {args : List Float} (hl : f.arity = args.length) (d : Nat) (out : String) :
    Eval.EndsIn (fun _ => False) (Eval.callAt m d f.name args out) ↔ m.Shallow d f := by
  -- A body calls functions one level down, and the chains from there are one shorter.
  induction d generalizing f args out with
  | zero =>
    rw [(hm.callAt_internal hf hext hl).1]
    exact iff_of_false (fun h => h) (not_shallow_zero m f)
  | succ d ih =>
    obtain ⟨b, hb, _, hclosed, _⟩ := hm.entry hf hext
    have hrun := hm.enter_eq hf hext hl hb (Eval.callAt m d) out
    rw [(hm.callAt_internal hf hext hl).2, shallow_succ_iff]
    constructor
    · rintro hends g ⟨hgext, b', hb', i, hi, name, hname, hg⟩
      obtain rfl : b' = b := Option.some.inj (hb'.symm.trans hb)
      obtain ⟨hlive, rfl⟩ := mem_live_of_find? hg
      obtain ⟨r, args', rfl⟩ := Instr.eq_call_of_callee? hname
      cases hanswer : Eval.enter (Eval.callAt m d) f args out with
      | error e out' =>
        rw [hanswer] at hends
        exact hends.elim
      | ok x out' =>
        rw [hanswer] at hrun
        obtain ⟨xs, out₁, y, out₂, hxs, hcallee⟩ := Store.called_of_run hclosed hrun hi
        obtain ⟨g', hg', harity⟩ := hm.callee hf hext hb hi
        obtain rfl : g' = g := Option.some.inj (hg'.symm.trans hg)
        refine (ih hlive hgext (harity.trans hxs.symm) out₁).1 ?_
        rw [hcallee]
        trivial
    · intro hshallow
      apply Store.run_endsIn hrun
      intro r name args' hcall xs out' hxs
      obtain ⟨g, hg, harity⟩ := hm.callee hf hext hb hcall
      obtain ⟨hlive, rfl⟩ := mem_live_of_find? hg
      cases hgext : g.isExternal with
      | true => exact hm.callAt_external hlive hgext (harity.trans hxs.symm) d out'
      | false =>
        refine (ih hlive hgext (harity.trans hxs.symm) out').2 (hshallow g ?_)
        exact ⟨hgext, b, hb, _, hcall, g.name, rfl, hg⟩

end Module.Runnable

namespace Eval

variable {m : Module} {f : Function}

/-- **The depth of calls decides whether a function returns.** In a module in which nothing else can
go wrong, a call of a function with a body returns exactly when every chain of calls that starts
there has at most 256 functions, those of the host not counted, and fails for its depth otherwise;
so it fails when the function reaches one that calls itself, directly or not. -/
theorem call_depth (hm : m.Runnable) (hf : f ∈ m.live) (hext : f.isExternal = false)
    (args : List Float) (hl : args.length = f.arity) :
    let returns := ∃ x out, call m f.name args = (.ok x, out)
    let tooDeep := ∃ e out, call m f.name args = (.error e, out) ∧
      e.error = .execution e.function "Call depth exceeded 256"
    (returns ↔ ∀ fs, List.IsChain m.Calls (f :: fs) → (f :: fs).length ≤ 256) ∧
      (returns ∨ tooDeep) ∧
      ∀ g, ReflTransGen m.Calls f g → TransGen m.Calls g g → tooDeep := by
  intro returns tooDeep
  have hiff : EndsIn (fun _ => False) (callAt m maxDepth f.name args "") ↔ m.Shallow maxDepth f :=
    hm.callAt_returns_iff hf hext hl.symm maxDepth ""
  have hends := hm.callAt_endsIn hf hl.symm maxDepth ""
  have hreturns : returns ↔ m.Shallow maxDepth f := by
    rw [← hiff]
    unfold returns call
    cases callAt m maxDepth f.name args "" <;> simp [EndsIn]
  have hcases : returns ∨ tooDeep := by
    unfold returns tooDeep call
    cases hanswer : callAt m maxDepth f.name args "" with
    | ok x out => exact .inl ⟨x, out, rfl⟩
    | error e out =>
      rw [hanswer] at hends
      refine .inr ⟨e, out, rfl, ?_⟩
      have hfault : e.fault = .depthExceeded := hends
      rw [Failure.error, hfault]
      rfl
  refine ⟨hreturns, hcases, fun g hreach hcycle => hcases.resolve_left fun h => ?_⟩
  exact Module.not_shallow_of_cycle hreach hcycle maxDepth (hreturns.1 h)

/-- A function that shows what is in a slot, one that calls it twice, and one that calls itself. -/
def nested : Module where
  name := "nested"
  functions := [
    Function.external "print" 1,
    { name := "show", params := [(0, "x")], stage := .verified, blocks := [{
        id := 0, name := "entry"
        instrs := [.alloca 1 .double "y", .store (.temp 0) (.temp 1),
          .load 2 (.temp 1) .double, .call 3 (.function "print") [.temp 2], .ret (.temp 3)] }] },
    { name := "twice", params := [(0, "x")], stage := .verified, blocks := [{
        id := 1, name := "entry"
        instrs := [.call 1 (.function "show") [.temp 0], .call 2 (.function "show") [.temp 1],
          .ret (.temp 2)] }] },
    { name := "loop", stage := .verified, blocks := [{
        id := 2, name := "entry", instrs := [.call 0 (.function "loop") [], .ret (.temp 0)] }] }]

theorem nested_runnable : nested.Runnable where
  verifies := by decide +kernel
  ready := by decide +kernel
  defined := by decide +kernel
  stored := by
    have hlive : nested.live = nested.functions := by decide +kernel
    intro f hf b hb before r p t rest h
    rw [hlive] at hf
    simp only [nested, List.mem_cons, List.not_mem_nil, or_false] at hf
    rcases hf with rfl | rfl | rfl | rfl
    · cases hb
    · obtain rfl := List.mem_singleton.1 hb
      simp [List.cons_eq_append_iff] at h
      obtain ⟨rfl, ⟨_, rfl, _⟩, _⟩ := h
      exact ⟨.temp 0, by simp⟩
    · obtain rfl := List.mem_singleton.1 hb
      simp [List.cons_eq_append_iff] at h
    · obtain rfl := List.mem_singleton.1 hb
      simp [List.cons_eq_append_iff] at h
  provided := by decide +kernel

/-- The function that calls twice returns, so no chain from it is too long; the one that calls
itself fails. -/
theorem call_depth_nested :
    let twice := nested.functions.getD 2 { name := "" }
    let loop := nested.functions.getD 3 { name := "" }
    call nested "twice" [2.5] = (.ok 2.5, "2.50\n2.50\n") ∧
      (∀ fs, List.IsChain nested.Calls (twice :: fs) → (twice :: fs).length ≤ 256) ∧
      nested.Calls loop loop ∧
      ∃ e out, call nested "loop" [] = (.error e, out) ∧
        e.error = .execution e.function "Call depth exceeded 256" := by
  intro twice loop
  have htwice : twice ∈ nested.live := by decide +kernel
  have hloop : loop ∈ nested.live := by decide +kernel
  have hreturns : call nested "twice" [2.5] = (.ok 2.5, "2.50\n2.50\n") := by decide +kernel
  have hcalls : nested.Calls loop loop := by
    refine ⟨rfl, _, rfl, _, List.mem_cons_self, "loop", rfl, ?_⟩
    decide +kernel
  refine ⟨hreturns, ?_, hcalls, ?_⟩
  · have h := call_depth nested_runnable htwice rfl [2.5] rfl
    exact h.1.1 ⟨_, _, hreturns⟩
  · have h := call_depth nested_runnable hloop rfl [] rfl
    exact h.2.2 loop .refl (.single hcalls)

end Eval

end StraightLine
