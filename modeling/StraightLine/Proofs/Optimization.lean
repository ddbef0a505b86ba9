import StraightLine.Pipeline
import StraightLine.Proofs.Peephole
import StraightLine.Proofs.ScanPasses

/-!
# Optimization

Every pass is a refinement of every well-formed function, and so of a module that verifies. Two
things follow for all pipelines. A module that verifies still does after any passes, so that a
pipeline fails only on what it is given (`Pipeline.run_ok_iff_verify`). And a call that returns does
so after any passes, with the same value and the same text (`call_runAll`).
-/

namespace StraightLine

/-- **Every pass is a refinement.** -/
theorem Pass.run_refines (p : Pass) {A : Arities} {f : Function} (hf : f.WellFormed A) :
    (p.run f).1.Refines A f := by
  unfold run
  split
  · exact .refl hf
  · cases p with
    | sroa => exact UnreadSlots.run_refines hf
    | earlyCse => exact CommonExpressions.run_refines hf
    | simplifyCfg => exact Reachable.run_refines hf
    | reassociate => exact OperandOrder.run_refines hf
    | mem2reg => exact SlotPromotion.run_refines hf
    | instSimplify => exact Folding.run_refines hf
    | instCombine => exact Strength.run_refines hf
    | dce => exact DeadCode.run_refines hf

/-! ### Modules -/

namespace Module

/-- A module whose live functions are well formed. -/
def WellFormed (m : Module) : Prop := ∀ f ∈ m.live, f.WellFormed m.arities

/-- The module `n` can stand in the place of `m`: under every name it has a function that refines
the one that `m` has, or both have none. -/
structure Refines (A : Arities) (n m : Module) : Prop where
  found : ∀ name f, m.find? name = some f →
    ∃ g, n.find? name = some g ∧ f.WellFormed A ∧ g.Refines A f
  missing : ∀ name, m.find? name = none → n.find? name = none

variable {m n o : Module}

theorem Refines.refl (hm : m.WellFormed) : m.Refines m.arities m := by
  refine ⟨fun name f hf => ?_, fun _ h => h⟩
  have hwf := hm f (mem_live_of_find? hf).1
  exact ⟨f, hf, hwf, .refl hwf⟩

theorem Refines.trans {A : Arities} (h₁ : o.Refines A n) (h₂ : n.Refines A m) : o.Refines A m := by
  refine ⟨fun name f hf => ?_, fun name h => h₁.missing name (h₂.missing name h)⟩
  obtain ⟨g, hg, hwf, hgf⟩ := h₂.found name f hf
  obtain ⟨h, hh, _, hhg⟩ := h₁.found name g hg
  exact ⟨h, hh, hwf, hhg.trans hgf⟩

/-- Calls are checked alike in a module that refines another. -/
theorem Refines.arities_eq {A : Arities} (h : n.Refines A m) : n.arities = m.arities := by
  funext name
  unfold arities
  cases hf : m.find? name with
  | none => rw [h.missing name hf]
  | some f =>
    obtain ⟨g, hg, _, hgf⟩ := h.found name f hf
    rw [hg, Option.map_some, Option.map_some, hgf.arity_eq]

end Module

/-- Runs passes on every live function of a module, one after another. -/
def Pass.runAll (ps : List Pass) (m : Module) : Module := ps.foldl (fun m p => p.runOnModule m) m

namespace Pass

variable {m : Module} (p : Pass)

theorem isLive_run {A : Arities} {f : Function} (hf : f.WellFormed A) :
    (p.run f).1.isLive = f.isLive := by
  rw [Function.isLive, (p.run_refines hf).stage, Function.isLive]

/-- A pass changes live functions one by one, and abandons none. -/
theorem live_runOnModule (hm : m.WellFormed) :
    (p.runOnModule m).live = m.live.map fun f => (p.run f).1 := by
  have hlive : ∀ f ∈ m.functions,
      (Function.isLive ∘ fun f => if f.isLive then (p.run f).1 else f) f = f.isLive := by
    intro f hf
    rw [Function.comp]
    split
    next hl => exact p.isLive_run (hm f (List.mem_filter.2 ⟨hf, hl⟩))
    next => rfl
  unfold Module.live runOnModule
  rw [List.filter_map, List.filter_congr hlive]
  exact List.map_congr_left fun f hf => if_pos (List.mem_filter.1 hf).2

/-- A pass keeps the names of functions. -/
theorem find?_runOnModule (hm : m.WellFormed) (name : String) :
    (p.runOnModule m).find? name = (m.find? name).map fun f => (p.run f).1 := by
  have hname : ∀ f ∈ m.live,
      ((fun f : Function => decide (f.name = name)) ∘ fun f => (p.run f).1) f =
      decide (f.name = name) := by
    intro f hf
    rw [Function.comp, (p.run_refines (hm f hf)).name]
  rw [Module.find?_eq_head?_live, Module.find?_eq_head?_live, p.live_runOnModule hm,
    List.filter_map, List.filter_congr hname, List.head?_map]

/-- A pass is a refinement of a module. -/
theorem runOnModule_refines (hm : m.WellFormed) : (p.runOnModule m).Refines m.arities m := by
  refine ⟨fun name f hf => ⟨(p.run f).1, ?_, ?_, ?_⟩, fun name h => ?_⟩
  · rw [p.find?_runOnModule hm, hf, Option.map_some]
  · exact hm f (Module.mem_live_of_find? hf).1
  · exact p.run_refines (hm f (Module.mem_live_of_find? hf).1)
  · rw [p.find?_runOnModule hm, h, Option.map_none]

/-- **A pass keeps a module verified.** -/
theorem verify_runOnModule (h : m.verify = .ok ()) : (p.runOnModule m).verify = .ok () := by
  rw [Module.verify_eq_ok] at h ⊢
  obtain ⟨hnames, hm⟩ := h
  rw [p.live_runOnModule hm, (p.runOnModule_refines hm).arities_eq]
  refine ⟨?_, fun g hg => ?_⟩
  · rw [List.map_map]
    have hname : m.live.map (Function.name ∘ fun f => (p.run f).1) = m.live.map Function.name :=
      List.map_congr_left fun f hf => (p.run_refines (hm f hf)).name
    rwa [hname]
  · obtain ⟨f, hf, rfl⟩ := List.mem_map.1 hg
    exact (p.run_refines (hm f hf)).wellFormed

theorem verify_runAll {ps : List Pass} (h : m.verify = .ok ()) : (runAll ps m).verify = .ok () := by
  induction ps generalizing m with
  | nil => exact h
  | cons p ps ih => exact ih (p.verify_runOnModule h)

/-- Passes one after another are a refinement of a module that verifies. -/
theorem runAll_refines {ps : List Pass} (h : m.verify = .ok ()) :
    (runAll ps m).Refines m.arities m := by
  induction ps generalizing m with
  | nil => exact .refl (Module.verify_eq_ok.1 h).2
  | cons p ps ih =>
    have href := p.runOnModule_refines (Module.verify_eq_ok.1 h).2
    have htrans := ih (p.verify_runOnModule h)
    rw [href.arities_eq] at htrans
    exact htrans.trans href

/-- Runs passes on a function, one after another. -/
def runEach (ps : List Pass) (f : Function) : Function := ps.foldl (fun f p => (p.run f).1) f

/-- Passes one after another are a refinement of a function that is well formed. -/
theorem runEach_refines {A : Arities} {f : Function} (hf : f.WellFormed A) (ps : List Pass) :
    (runEach ps f).Refines A f := by
  induction ps generalizing f with
  | nil => exact .refl hf
  | cons p ps ih =>
    have href := p.run_refines hf
    exact (ih href.wellFormed).trans href

/-- No pass touches a function of the host. -/
theorem runEach_of_isExternal {f : Function} (hf : f.isExternal) (ps : List Pass) :
    runEach ps f = f := by
  induction ps with
  | nil => rfl
  | cons p ps ih =>
    change runEach ps (p.run f).1 = f
    rw [run, if_pos hf, ih]

/-- Passes on a module run on each of its live functions. -/
theorem live_runAll (hv : m.verify = .ok ()) (ps : List Pass) :
    (runAll ps m).live = m.live.map (runEach ps) := by
  induction ps generalizing m with
  | nil => exact (List.map_id _).symm
  | cons p ps ih =>
    change (runAll ps (p.runOnModule m)).live = _
    rw [ih (p.verify_runOnModule hv), p.live_runOnModule (Module.verify_eq_ok.1 hv).2, List.map_map]
    rfl

end Pass

/-! ### Pipelines -/

namespace Pipeline

/-- Passes never find a module that verifies broken, and lead to the same module whether or not it
is verified after each of them. -/
theorem runPasses_of_verify {b : Bool} {ps : List Pass} {m : Module} (h : m.verify = .ok ()) :
    runPasses b ps m = (.ok (), Pass.runAll ps m) := by
  induction ps generalizing m with
  | nil => cases b <;> simp [runPasses, Pass.runAll, h]
  | cons p ps ih =>
    have hp := p.verify_runOnModule h
    cases b <;> simp [runPasses, hp, ih hp, Pass.runAll]

/-- **A pass never breaks a module that verifies.** A pipeline succeeds exactly on the modules that
verify. It leaves any other module as it is, and gives the error of the verification; the module
that it makes of one that verifies does so too, and is the same whether or not the module is
verified after every pass. -/
theorem run_ok_iff_verify (p : Pipeline) (m : Module) :
    ((p.run m).1 = .ok () ↔ m.verify = .ok ()) ∧
      (∀ e, m.verify = .error e → p.run m = (.error e, m)) ∧
      (m.verify = .ok () → (p.run m).2.verify = .ok () ∧
        ∀ b, (run { p with verifyEach := b } m).2 = (p.run m).2) := by
  cases h : m.verify with
  | error e => simp [run, h]
  | ok _ =>
    have hrun (b : Bool) : run { p with verifyEach := b } m = (.ok (), Pass.runAll p.passes m) := by
      simp only [run, h, runPasses_of_verify h]
    have hp : p.run m = (.ok (), Pass.runAll p.passes m) := hrun p.verifyEach
    simp [hp, hrun, Pass.verify_runAll h]

end Pipeline

/-! ### Calls -/

namespace Eval

variable {A : Arities} {m n : Module}

/-- What a function that is entered returns, a function that refines it returns. -/
theorem enter_of_refines {c₁ c₂ : Callee} {f g : Function} (hf : f.WellFormed A)
    (hext : f.isExternal = false) (hg : g.Refines A f) {args : List Float}
    (hl : f.arity = args.length)
    (hc : ∀ h xs out y out', c₁ h xs out = .ok y out' → c₂ h xs out = .ok y out')
    {out out' : String} {x : Float} (h : enter c₁ f args out = .ok x out') :
    enter c₂ g args out = .ok x out' := by
  cases ha : f.answer? c₁ args out with
  | none =>
    obtain ⟨e, out₁, he⟩ := enter_of_answer_none (hf.numbered hext) hl ha
    rw [h] at he
    cases he
  | some a =>
    obtain rfl := (enter_of_answer (hf.numbered hext) hl ha).symm.trans h
    refine enter_of_answer (hg.wellFormed.numbered (hg.isExternal.trans hext))
      (hg.arity_eq.trans hl) ?_
    have hans := hg.answer c₁ args out _ hl.symm ha
    rw [Function.answer?, Option.bind_eq_some_iff] at hans ⊢
    obtain ⟨b, hb, hans⟩ := hans
    exact ⟨b, hb, Store.run_mono hc hans⟩

/-- What relates the bodies of functions, when it relates the calls that these make, relates the
calls of two modules of which one refines the other. -/
theorem callAt_rel
    {R : EStateM.Result Failure String Float → EStateM.Result Failure String Float → Prop}
    (hn : n.Refines A m) (hR : ∀ r, R r r)
    (henter : ∀ d name f g args out, m.find? name = some f → f.WellFormed A → g.Refines A f →
      f.isExternal = false → f.arity = args.length →
      (∀ h xs out, R (callAt m d h xs out) (callAt n d h xs out)) →
      R (enter (callAt m d) f args out) (enter (callAt n d) g args out))
    (d : Nat) (name : String) (args : List Float) (out : String) :
    R (callAt m d name args out) (callAt n d name args out) := by
  induction d using Nat.strongRecOn generalizing name args out with
  | ind d ih =>
    cases hf : m.find? name with
    | none =>
      rw [callAt_of_find?_none hf, callAt_of_find?_none (hn.missing name hf)]
      exact hR _
    | some f =>
      obtain ⟨g, hg, hwf, href⟩ := hn.found name f hf
      rw [callAt_of_find?_some hf, callAt_of_find?_some hg, href.arity_eq, href.isExternal,
        href.stage]
      split
      next => exact hR _
      next hl =>
        split
        next => exact hR _
        next hext =>
          split
          next => exact hR _
          next =>
            cases d with
            | zero => exact hR _
            | succ d =>
              exact henter d name f g args out hf hwf href (by simpa using hext) (by simpa using hl)
                (ih d (Nat.lt_succ_self d))

/-- What a call returns in a module, it returns in a module that refines it. -/
theorem callAt_of_refines (hn : n.Refines A m) {d : Nat} {name : String} {args : List Float}
    {out out' : String} {x : Float} (h : callAt m d name args out = .ok x out') :
    callAt n d name args out = .ok x out' := by
  refine callAt_rel (R := fun r r' => ∀ x out', r = .ok x out' → r' = .ok x out') hn
    (fun _ _ _ h => h) ?_ d name args out x out' h
  intro d name f g args out _ hwf href hext hl ih x out' h
  exact enter_of_refines hwf hext href hl ih h

theorem call_eq_ok {name : String} {args : List Float} {x : Float} {out : String} :
    call m name args = (.ok x, out) ↔ callAt m maxDepth name args "" = .ok x out := by
  unfold call
  cases callAt m maxDepth name args "" <;> simp

/-- **Optimization preserves meaning.** What a call returns in a module that verifies, with the text
that it writes, it returns after any passes on the module. -/
theorem call_runAll {ps : List Pass} (hv : m.verify = .ok ()) {name : String} {args : List Float}
    {x : Float} {out : String} (h : call m name args = (.ok x, out)) :
    call (Pass.runAll ps m) name args = (.ok x, out) :=
  call_eq_ok.2 (callAt_of_refines (Pass.runAll_refines hv) (call_eq_ok.1 h))

/-- A function with a slot, an identity, a constant that is subtracted and an operand that is
undefined, next to the host function that it calls. -/
def sample : Module where
  name := "sample"
  functions := [
    Function.external "print" 1,
    { name := "f", params := [(0, "x")], stage := .verified
      blocks := [{
        id := 0, name := "entry"
        instrs := [
          .alloca 1 .double "y", .store (.temp 0) (.temp 1), .load 2 (.temp 1) .double,
          .arith 3 .add (.constant (-0.0)) (.temp 2), .arith 4 .sub (.temp 3) (.float 1.5),
          .call 5 (.function "print") [.temp 4], .ret (.temp 5)] }, {
        id := 1, name := "rest", instrs := [.arith 6 .add .undef (.temp 2), .ret (.temp 6)] }] }]

theorem call_runAll_sample :
    sample.verify = .ok () ∧ call sample "f" [2.5] = (.ok 1.0, "1.00\n") ∧
      call (Pass.runAll Pass.all sample) "f" [2.5] = (.ok 1.0, "1.00\n") := by
  have hv : sample.verify = .ok () := by decide +kernel
  have hcall : call sample "f" [2.5] = (.ok 1.0, "1.00\n") := by decide +kernel
  exact ⟨hv, hcall, call_runAll hv hcall⟩

end Eval

end StraightLine
