import StraightLine.Proofs.ItemCode

/-!
# Finished modules

Items are lowered by steps of the session. Whatever items a session was given, it can be closed, and
the functions of the finished module are those of the items that were accepted, each with the passes
run on it (`Lower.Listing.Compiled.closes`).
-/

namespace StraightLine

open Interpreter (Definition)

/-! ### Items are made of steps -/

namespace Lower

open Session (Takes Builds Grows Makes takes_bind takes_pure takes_query takes_map)

theorem builds_paramScope (f : FunctionId) (i : Nat) (ps : List String) :
    Builds (paramScope f i ps) := by
  induction ps generalizing i with
  | nil => exact takes_pure []
  | cons p ps ih =>
    exact takes_bind (takes_query _) fun v => takes_bind (ih (i + 1)) fun _ => takes_pure _

theorem grows_body (f : FunctionId) (params : List String) (b : List Stmt) :
    Grows (body f params b) :=
  takes_bind (builds_paramScope f 0 params).grows fun scope =>
    takes_bind (grows_stmts f scope b) fun _ => Session.grows_verifyFunction f

/-- A lowering that is settled takes its own steps, and perhaps those that abandon its function. -/
theorem takes_settle {R : Session → Session → Prop} {f : FunctionId} {x : SessionM Unit}
    (hx : Takes R x) (hf : Takes R (Session.abandonFunction f)) : Takes R (settle f x) := by
  intro s
  have hs := hx s
  unfold Session.result settle at *
  cases hres : x s with
  | ok _ t =>
    rw [hres] at hs
    exact hs
  | error e t =>
    rw [hres] at hs
    have ht := hf t
    unfold Session.result at ht
    dsimp only
    by_cases hp : t.isPoisoned
    · rw [if_pos hp]
      exact hs
    · rw [if_neg hp]
      cases hgone : Session.abandonFunction f t with
      | ok _ u =>
        rw [hgone] at ht
        exact hs.trans ht
      | error _ u =>
        rw [hgone] at ht
        exact hs.trans ht

/-- An item is lowered by steps of the session. -/
theorem makes_item (i : Item) : Makes (item i) := by
  cases i with
  | function proto b =>
    rw [item_function]
    exact takes_bind (takes_query _) fun _ =>
      takes_bind (Session.grows_beginFunction _ _).makes fun f =>
        takes_bind (takes_settle (grows_body f _ b).makes (Session.makes_abandonFunction f))
          fun _ => takes_pure _
  | external proto => exact takes_map _ (Session.grows_declareFunction _ _).makes
  | topLevel value =>
    refine takes_bind Session.grows_beginTopLevel.makes fun f =>
      takes_bind (takes_settle ?_ (Session.makes_abandonFunction f)) fun _ => takes_pure _
    rw [finishTopLevel_eq_body]
    exact (grows_body f [] _).makes

theorem makes_declareHosts (hosts : List (String × Nat)) : Makes (declareHosts hosts) := by
  induction hosts with
  | nil => exact takes_pure ()
  | cons h hosts ih =>
    intro s
    change s.Steps
      (Session.result (if (s.functionNamed? h.1).isNone then _ else _ : SessionM Unit) s)
    split
    · exact takes_bind (Session.grows_declareFunction h.1 h.2).makes (fun _ => ih) s
    · exact ih s

namespace Listing

theorem steps_start (id : Nat) (o : SessionOptions) (t : Target) (hosts : Bool) :
    (Session.start id o t).Steps (start id o t hosts).session := by
  cases hosts with
  | false => exact .refl
  | true => exact makes_declareHosts Eval.hostLibrary _

theorem steps_addAll (l : Listing) (items : List Item) :
    l.session.Steps (l.addAll items).session := by
  induction items generalizing l with
  | nil => exact .refl
  | cons i items ih =>
    have hadd : l.session.Steps (l.add i).session := by
      rw [add_session]
      exact makes_item i l.session
    exact hadd.trans (ih (l.add i))

end Listing

end Lower

/-! ### Passes on a module without abandoned functions -/

namespace Pass

/-- Passes on a module run on each of its functions. -/
theorem functions_runAll {m : Module} (hv : m.verify = .ok ()) (hm : ∀ f ∈ m.functions, f.isLive)
    (ps : List Pass) : (runAll ps m).functions = m.functions.map (runEach ps) := by
  have hlive := live_runAll hv ps
  rwa [Module.live, List.filter_eq_self.2 (isLive_of_mem_runAll hv hm ps), Module.live,
    List.filter_eq_self.2 hm] at hlive

end Pass

/-- Functions that are verified, or provided by the host, are not marked anew. -/
theorem Module.finished_of_verified {m : Module}
    (hm : ∀ f ∈ m.functions, f.isExternal = true ∨ f.stage = .verified) : m.finished = m := by
  have hsame : m.functions.map Session.markVerified = m.functions.map id := by
    refine List.map_congr_left fun f hf => ?_
    unfold Session.markVerified
    split
    next => rfl
    next hext => rw [← (hm f hf).resolve_left hext, id]
  rw [finished, hsame, List.map_id]

/-- What is related to a list member by member is related to something for each of them. -/
theorem exists_of_mem_left {α β : Type} {R : α → β → Prop} {xs : List α} {ys : List β}
    (h : List.Forall₂ R xs ys) {x : α} (hx : x ∈ xs) : ∃ y ∈ ys, R x y := by
  induction h with
  | nil => cases hx
  | cons hr _ ih =>
    rcases List.mem_cons.1 hx with rfl | hx
    · exact ⟨_, List.mem_cons_self, hr⟩
    · obtain ⟨y, hy, hr⟩ := ih hx
      exact ⟨y, List.mem_cons_of_mem _ hy, hr⟩

namespace Lower.Listing

variable {l : Listing}

/-- No live function is left half-built. -/
theorem Compiled.isDone (hl : l.Compiled) {f : Function} (hf : f ∈ l.session.module.live) :
    f.stage ≠ .building ∧ (f.isExternal = true ∨ f.stage = .verified) := by
  obtain ⟨a, _, label, rfl⟩ := exists_of_mem_left hl hf
  cases a.definition with
  | external arity => exact ⟨nofun, .inl rfl⟩
  | function params b => exact ⟨nofun, .inr rfl⟩

/-- Every live function is well formed. -/
theorem Compiled.wellFormed (hl : l.Compiled) (hready : l.session.Ready) :
    ∀ f ∈ l.session.module.live, f.WellFormed l.session.module.arities := by
  intro f hf
  have hmem := List.mem_filter.1 hf
  exact (hready.typed.wellFormed_iff hready.formed hmem.1 hmem.2).2 (hl.isDone hf).1

/-- **A session can be closed after any items**, and the finished module verifies. Its functions are
the live ones of the session after the passes. -/
theorem Compiled.closes (hl : l.Compiled) (hready : l.session.Ready) :
    ∃ m, l.session.close = .ok m ∧ m.verify = .ok () ∧
      m.functions = l.session.module.live.map (Pass.runEach l.session.pipeline.passes) := by
  have hlive : ∀ f ∈ l.session.module.dropAbandoned.functions, f.isLive := fun f hf =>
    (List.mem_filter.1 hf).2
  have hv : l.session.module.dropAbandoned.verify = .ok () :=
    Session.verify_dropAbandoned_eq_ok.2 ⟨hready.formed.distinct, hl.wellFormed hready⟩
  have hfunctions := Pass.functions_runAll hv hlive l.session.pipeline.passes
  refine ⟨_, Session.close_eq_ok.2 ⟨hready.usable, hv, ?_⟩, Pass.verify_runAll hv, hfunctions⟩
  refine (Module.finished_of_verified fun g hg => ?_).symm
  rw [hfunctions] at hg
  obtain ⟨f, hf, rfl⟩ := List.mem_map.1 hg
  have href := Pass.runEach_refines (hl.wellFormed hready f hf) l.session.pipeline.passes
  rw [href.isExternal, href.stage]
  exact (hl.isDone hf).2

end Lower.Listing

end StraightLine
