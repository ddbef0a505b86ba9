import StraightLine.Command.Outcome
import StraightLine.Proofs.FinishedModules

/-!
# Every program is built to the end

Whatever items a session is given one by one, it is never poisoned and can be closed. The finished
module has a function for every item that was accepted, in their order, and each does what its item
means (`Lower.Listing.call_finished`). So the command that shows the code of a program always gets
to its end, and its exit status only says whether an item was refused (`Command.completes`).
-/

namespace StraightLine

open Interpreter (Definition)

namespace Eval

/-- Calls only look at what names stand for. -/
theorem callAt_congr {m n : Module} (h : ∀ name, n.find? name = m.find? name) (depth : Nat) :
    callAt n depth = callAt m depth := by
  induction depth with
  | zero =>
    funext name args
    simp only [callAt, h]
  | succ depth ih =>
    funext name args
    simp only [callAt, h, ih]

theorem call_dropAbandoned (m : Module) (name : String) (args : List Float) :
    call m.dropAbandoned name args = call m name args := by
  have hfind (name : String) : m.dropAbandoned.find? name = m.find? name := by
    rw [Module.find?_eq_head?_live, Module.find?_eq_head?_live]
    simp [Module.dropAbandoned, Module.live]
  rw [call, call, callAt_congr hfind]

end Eval

namespace Lower.Listing

/-! ### Finished modules -/

/-- The function of an accepted item in a finished module: that of the host, or one that is verified
and has the name and the parameters of the item. -/
def Finished (f : Function) (a : Accepted) : Prop :=
  match a.definition with
  | .external arity => f = Function.external a.name arity
  | .function params _ => f.name = a.name ∧ f.params = Function.numberFrom 0 params ∧
      f.isExternal = false ∧ f.stage = .verified

/-- Passes keep the names and the parameters of functions. -/
theorem Compiled.finished {l : Listing} (hl : l.Compiled) (hready : l.session.Ready)
    (ps : List Pass) :
    List.Forall₂ Finished (l.session.module.live.map (Pass.runEach ps)) l.accepted := by
  rw [List.forall₂_map_left_iff]
  refine ((List.forall₂_and_left _ _).2 ⟨hl.wellFormed hready, hl⟩).imp ?_
  rintro f ⟨name, d, handle⟩ ⟨hwf, label, rfl⟩
  cases d with
  | external arity => exact Pass.runEach_of_isExternal rfl ps
  | function params b =>
    have href := Pass.runEach_refines hwf ps
    exact ⟨href.name, href.params, href.isExternal, href.stage⟩

/-- What is finished is live, and verified if it is not of the host. -/
theorem Finished.isDone {f : Function} {a : Accepted} (h : Finished f a) :
    f.isLive ∧ (f.isExternal = false → f.stage = .verified) := by
  obtain ⟨name, d, handle⟩ := a
  cases d with
  | external arity =>
    obtain rfl : f = Function.external name arity := h
    exact ⟨rfl, nofun⟩
  | function params b =>
    obtain ⟨_, _, _, hstage⟩ := h
    exact ⟨by simp [Function.isLive, hstage], fun _ => hstage⟩

/-- **Calls in the finished module do what the accepted items mean.** -/
theorem call_finished {l : Listing} (hl : l.Compiled) (hsound : l.Sound) (htidy : l.session.Tidy)
    {m : Module} (hm : l.session.close = .ok m) {a : Accepted} (ha : a ∈ l.accepted)
    (args : List Float) :
    Eval.call m a.name args = Interpreter.call l.defs a.name args := by
  have hfinished : l.session.module.dropAbandoned.finished = l.session.module.dropAbandoned :=
    Module.finished_of_verified fun f hf => (hl.isDone hf).2
  rw [Session.call_close htidy hm, hfinished, Eval.call_dropAbandoned]
  exact hsound.call (List.mem_map_of_mem ha) args

/-! ### Items that are refused -/

/-- One of some items is refused when they are lowered one by one. -/
def Refuses (l : Listing) (items : List Item) : Prop :=
  ∃ before i after, items = before ++ i :: after ∧
    ∃ err t, item i (l.addAll before).session = .error err t

theorem refuses_nil (l : Listing) : ¬ l.Refuses [] := by
  rintro ⟨before, i, after, h, _⟩
  simp at h

/-- The first item is refused, or one after it. -/
theorem refuses_cons (l : Listing) (i : Item) (items : List Item) :
    l.Refuses (i :: items) ↔ (∃ err t, item i l.session = .error err t) ∨
      (l.add i).Refuses items := by
  constructor
  · rintro ⟨before, j, after, h, hj⟩
    cases before with
    | nil =>
      cases h
      exact .inl hj
    | cons k before =>
      cases h
      exact .inr ⟨before, j, after, rfl, hj⟩
  · rintro (hi | ⟨before, j, after, rfl, hj⟩)
    · exact ⟨[], i, items, rfl, hi⟩
    · exact ⟨i :: before, j, after, rfl, hj⟩

end Lower.Listing

/-! ### Commands -/

namespace Command

open Lower (Listing)

/-- Steps that save nothing cannot fail. -/
theorem Outcome.replay_status (o : Outcome) {actions : List Action}
    (h : ∀ a ∈ actions, ∀ path text notice, a ≠ .save path text notice) :
    (o.replay actions).status = o.status := by
  induction actions generalizing o with
  | nil => rfl
  | cons a rest ih =>
    rw [List.forall_mem_cons] at h
    cases a with
    | print text => exact ih _ h.2
    | complain text => exact ih _ h.2
    | save path text notice => exact absurd rfl (h.1 path text notice)

namespace Plan

theorem Progress.add_of_ok {p : Progress} {i : Item} {x : Lower.Lowered} {s : Session}
    (h : Lower.item i p.session = .ok x s) : p.add .ir i = .ok { p with session := s } := by
  unfold Progress.add
  rw [h]
  cases x <;> rfl

/-- An error of construction does not end the work. -/
theorem Progress.add_of_error {p : Progress} {i : Item} {f message : String} {s : Session}
    (h : Lower.item i p.session = .error (.construction f message) s) :
    p.add .ir i = .ok (Progress.note { p with session := s } (.construction f message)) := by
  unfold Progress.add
  rw [h]
  rfl

theorem hasErrors_add_ofError (r : Report) (e : Error) : (r.add (.ofError e)).hasErrors := by
  simp [Report.hasErrors, Report.count, Report.add, Diagnostic.ofError]

/-- **All items of a program are lowered**, and errors are reported exactly if one is refused. -/
theorem foldlM_add {l : Listing} (hl : l.session.Ready) (items : List Item) {p : Progress}
    (hp : p.session = l.session) :
    ∃ q, items.foldlM (Progress.add .ir) p = .ok q ∧ q.session = (l.addAll items).session ∧
      (q.report.hasErrors ↔ p.report.hasErrors ∨ l.Refuses items) := by
  induction items generalizing l p with
  | nil => exact ⟨p, rfl, hp, by simp [Listing.refuses_nil]⟩
  | cons i items ih =>
    have hdecides := Lower.item_decides hl i
    have hnext := Listing.ready_add hl i
    have hsession := Listing.add_session l i
    rw [List.foldlM_cons, Listing.refuses_cons]
    cases hitem : Lower.item i l.session with
    | ok x s =>
      rw [Session.result_ok hitem] at hsession
      rw [Progress.add_of_ok (hp ▸ hitem)]
      obtain ⟨q, hq, hqs, herrors⟩ := ih hnext (p := { p with session := s }) hsession.symm
      exact ⟨q, hq, hqs, by simpa using herrors⟩
    | error err s =>
      rw [hitem] at hdecides
      obtain ⟨_, f, message, rfl⟩ := hdecides
      rw [Session.result_error hitem] at hsession
      rw [Progress.add_of_error (hp ▸ hitem)]
      obtain ⟨q, hq, hqs, herrors⟩ := ih hnext
        (p := Progress.note { p with session := s } (.construction f message)) hsession.symm
      refine ⟨q, hq, hqs, ?_⟩
      have hnoted := hasErrors_add_ofError p.report (.construction f message)
      simp [herrors, Progress.note, hnoted]

/-- A session can be opened for every target that there is. -/
theorem openSession_of_target {o : Options} {target : Target}
    (h : Target.ofTriple (o.target.getD Target.host) = .ok target) :
    openSession o = .ok (Listing.start 1 o.session target true).session := by
  obtain ⟨t, ht, _⟩ :=
    Listing.declareHosts_of_new rfl (Listing.newHosts_start 1 o.session target)
  have hdeclare : Lower.declareHostLibrary (Session.start 1 o.session target) = .ok () t := ht
  have hsession : (Listing.start 1 o.session target true).session = t := Session.result_ok ht
  simp [openSession, h, hsession, hdeclare, bind, Except.bind, pure, Except.pure]

/-- **To show the code of a program never ends early.** Its status says whether an item was
refused. -/
theorem status_ofProgram {o : Options} {target : Target}
    (h : Target.ofTriple (o.target.getD Target.host) = .ok target) (program : Program) :
    ∃ p m, ofProgram .ir o program =
        { actions := announce p ++ emit o m ++ showCode o m,
          status := if p.report.hasErrors then failed else 0 } ∧
      (p.report.hasErrors ↔ (Listing.start 1 o.session target true).Refuses program.items) := by
  have hready := Listing.ready_start 1 o.session target true
  obtain ⟨p, hp, hsession, herrors⟩ := foldlM_add hready program.items
    (p := { session := (Listing.start 1 o.session target true).session }) rfl
  obtain ⟨m, hm, _⟩ :=
    (Listing.compiled_addAll (Listing.compiled_start 1 o.session target true) hready
      program.items).closes (Listing.ready_addAll hready program.items)
  refine ⟨p, m, ?_, by simpa [Report.hasErrors, Report.count] using herrors⟩
  have hbuild : build .ir o program = .ok (m, p) := by
    simp [build, openSession_of_target h, Except.mapError, hp, hsession, hm, bind, Except.bind,
      pure, Except.pure]
  rw [ofProgram, hbuild]

/-- Without a file to write, only texts are shown. -/
theorem not_save_of_ir {o : Options} (hsave : o.saveIr = false) (hjson : o.dumpJson = none)
    (p : Progress) (m : Module) :
    ∀ a ∈ announce p ++ emit o m ++ showCode o m, ∀ path text notice,
      a ≠ .save path text notice := by
  rintro a ha path text notice rfl
  simp only [announce, emit, showCode, hsave, hjson, List.mem_append, List.mem_cons] at ha
  split at ha <;> split at ha <;> simp at ha

end Plan

/-- **Every program is built to the end.** Whatever items a new session is given one by one, it is
not poisoned and can be closed. The finished module verifies, its functions are those of the
accepted items in their order, those of the host library first, none of them is abandoned, all that
are not of the host are verified, and calls of them do what the items mean. So a command that shows
the code of a program, of which there is no fault in the text or in the target and no file to write,
never ends with the fatal status: it ends with one if some item is refused, and with zero else. -/
theorem completes :
    (∀ (id : Nat) (o : SessionOptions) (target : Target) (hosts : Bool) (items : List Item),
      let l := (Listing.start id o target hosts).addAll items
      l.session.poisonedBy = none ∧ ∃ m, l.session.close = .ok m ∧ m.verify = .ok () ∧
        List.Forall₂ Listing.Finished m.functions l.accepted ∧
        (∀ f ∈ m.functions, f.isLive ∧ (f.isExternal = false → f.stage = .verified)) ∧
        ∀ a ∈ l.accepted, ∀ args, Eval.call m a.name args = Interpreter.call l.defs a.name args) ∧
    ∀ (words : List String) (o : Options) (d : Directory) (source : String) (program : Program)
      (target : Target),
      Invocation.ofArguments words = .build .ir o → o.saveIr = false → o.dumpJson = none →
      d.read o.input = .ok source → Program.ofJsonText source = some program →
      Target.ofTriple (o.target.getD Target.host) = .ok target →
      let refused := (Listing.start 1 o.session target true).Refuses program.items
      let status := ((Invocation.ofArguments words).outcome d).status
      status ≠ Plan.fatal ∧ (refused → status = Plan.failed) ∧ (¬ refused → status = 0) := by
  constructor
  · intro id o target hosts items l
    have hstart := Listing.ready_start id o target hosts
    have hready : l.session.Ready := Listing.ready_addAll hstart items
    have hl : l.Compiled :=
      Listing.compiled_addAll (Listing.compiled_start id o target hosts) hstart items
    have hsound : l.Sound := (Listing.sound_start id o target hosts).addAll items
    have htidy : l.session.Tidy := (Session.Tidy.start id o target).steps
      ((Listing.steps_start id o target hosts).trans (Listing.steps_addAll _ items))
    obtain ⟨m, hm, hverify, hfunctions⟩ := hl.closes hready
    have hfinished : List.Forall₂ Listing.Finished m.functions l.accepted := by
      rw [hfunctions]
      exact hl.finished hready _
    refine ⟨hready.usable, m, hm, hverify, hfinished, fun f hf => ?_, fun a ha args => ?_⟩
    · obtain ⟨a, _, ha⟩ := exists_of_mem_left hfinished hf
      exact ha.isDone
    · exact Listing.call_finished hl hsound htidy hm ha args
  · intro words o d source program target hwords hsave hjson hread hprogram htarget refused status
    obtain ⟨p, m, hplan, herrors⟩ := Plan.status_ofProgram htarget program
    have hstatus : status = if p.report.hasErrors then Plan.failed else 0 := by
      change ((Invocation.ofArguments words).outcome d).status = _
      have houtcome : (Invocation.ofArguments words).outcome d =
          (Plan.ofProgram .ir o program).replay d := by
        simp [hwords, Invocation.outcome, Invocation.plan, Invocation.input?, hread,
          Except.mapError, Plan.ofInput, hprogram]
      rw [houtcome, hplan]
      exact Outcome.replay_status _ (Plan.not_save_of_ir hsave hjson p m)
    rw [hstatus]
    refine ⟨?_, fun h => if_pos (herrors.2 h), fun h => if_neg (mt herrors.1 h)⟩
    split <;> decide

/-- A program of an expression that is refused and one that is accepted. -/
def sampleSource : String := "\x7b\"items\": [\x7b\"Expr\": \x7b\"Variable\": \"x\"\x7d\x7d, " ++
  "\x7b\"Expr\": \x7b\"Number\": 1\x7d\x7d]\x7d"

/-- A directory that holds only the program. -/
def sampleDirectory : Directory := { files := [(["p.json"], sampleSource)] }

theorem completes_sample :
    ∃ program, Program.ofJsonText sampleSource = some program ∧
      (Listing.start 1 {} { triple := Target.host, arch := "x86_64", os := "linux" } true).Refuses
        program.items ∧
      ((Invocation.ofArguments ["ir", "p.json"]).outcome sampleDirectory).status = Plan.failed := by
  have hsome : (Program.ofJsonText sampleSource).isSome := by decide +kernel
  obtain ⟨program, hprogram⟩ := Option.isSome_iff_exists.1 hsome
  have hwords : Invocation.ofArguments ["ir", "p.json"] = .build .ir { input := "p.json" } := by
    decide +kernel
  have hread : sampleDirectory.read "p.json" = .ok sampleSource := by cbv
  have hstatus : ((Invocation.ofArguments ["ir", "p.json"]).outcome sampleDirectory).status =
      Plan.failed := by decide +kernel
  obtain ⟨_, _, hzero⟩ :=
    completes.2 _ _ sampleDirectory _ program _ hwords rfl rfl hread hprogram rfl
  refine ⟨program, hprogram, ?_, hstatus⟩
  by_contra hrefused
  exact absurd (hstatus.symm.trans (hzero hrefused)) (by decide)

end Command

end StraightLine
