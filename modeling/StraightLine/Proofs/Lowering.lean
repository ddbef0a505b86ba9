import StraightLine.Proofs.LoweredItems

/-!
# Lowering preserves meaning

Items are lowered one by one through a session; those that are accepted make up a program, in which
their names are bound to what they mean (`Lower.Listing`). At any time, to call an accepted item by
name in the module of the session gives what the interpreter gives for the program: the same value
or the same failure, and the same text (`Lower.Listing.call_lowered`).
-/

namespace StraightLine.Lower

open Interpreter (Definition)

/-- An item that a session has accepted. -/
structure Accepted where
  name : String
  definition : Definition
  handle : FunctionId

/-- A session, and the items that it has accepted. -/
structure Listing where
  session : Session
  accepted : List Accepted

namespace Listing

/-- A new session, in which the host library may be declared first. -/
def start (id : Nat) (o : SessionOptions) (t : Target) (hosts : Bool) : Listing :=
  if hosts then
    { session := Session.result declareHostLibrary (Session.start id o t)
      accepted := Eval.hostLibrary.zipIdx.map fun (h, i) => ⟨h.1, .external h.2, ⟨id, i⟩⟩ }
  else { session := Session.start id o t, accepted := [] }

/-- Lowers an item, which is accepted or refused. -/
def add (l : Listing) (i : Item) : Listing :=
  match item i l.session with
  | .ok x s => ⟨s, l.accepted ++ [⟨itemName l.session i, itemDefinition i, x.handle⟩]⟩
  | .error _ s => { l with session := s }

/-- Lowers items one by one. -/
def addAll (l : Listing) (items : List Item) : Listing := items.foldl add l

/-- The program of the accepted items. -/
def defs (l : Listing) : List (String × Definition) :=
  l.accepted.map fun a => (a.name, a.definition)

/-- The names of the accepted items. -/
def names (l : Listing) : List String := l.accepted.map Accepted.name

end Listing

/-- A function that does what a definition says does so when more can be called. -/
theorem Realizes.mono {known known' : String → Prop} {g : Function} {name : String} {d : Definition}
    (h : Realizes known g name d) (hknown : ∀ n, known n → known' n) :
    Realizes known' g name d := by
  refine ⟨h.named, h.live, h.arity, ?_⟩
  have hmeaning := h.meaning
  cases d with
  | external k => exact hmeaning
  | function params body =>
    obtain ⟨hext, hstage, henter⟩ := hmeaning
    exact ⟨hext, hstage, fun c₁ c₂ hc => henter c₁ c₂ fun n hn => hc n (hknown n hn)⟩

/-! ### The invariant -/

namespace Listing

/-- The live functions of the session do what the accepted items mean, in their order; only a
session that is poisoned has more. Handles stand for functions with the right names, and no two
items have the same name. -/
structure Sound (l : Listing) : Prop where
  realized : ∃ gs rest, l.session.module.live = gs ++ rest ∧
    (l.session.poisonedBy = none → rest = []) ∧
    List.Forall₂ (fun g a => Realizes (· ∈ l.names) g a.name a.definition) gs l.accepted
  handles : ∀ a ∈ l.accepted, ∃ e g, l.session.entry a.handle = .ok e ∧
    l.session.module.functions[e.index]? = some g ∧ g.name = a.name
  distinct : l.names.Nodup

/-- The accepted items and their functions have the same names. -/
theorem names_eq {known : String → Prop} {gs : List Function} {as : List Accepted}
    (h : List.Forall₂ (fun g a => Realizes known g a.name a.definition) gs as) :
    gs.map Function.name = as.map Accepted.name := by
  induction h with
  | nil => rfl
  | cons hr _ ih => rw [List.map_cons, List.map_cons, hr.named, ih]

theorem names_concat (s : Session) (as : List Accepted) (a : Accepted) :
    names ⟨s, as ++ [a]⟩ = as.map Accepted.name ++ [a.name] := by
  simp [names]

theorem live_append {m n : Module} {f : Function} (h : n.functions = m.functions ++ [f]) :
    n.live = m.live ++ [f].filter Function.isLive := by
  rw [Module.live, h, List.filter_append, Module.live]

/-- Handles go on standing for what they do when a function is added. -/
theorem handle_of_push {s t : Session} {e : FunctionEntry} {f : Function} (hid : t.id = s.id)
    (hfunctions : t.functions = s.functions.push e)
    (hmodule : t.module.functions = s.module.functions ++ [f]) {a : Accepted}
    (h : ∃ e g, s.entry a.handle = .ok e ∧ s.module.functions[e.index]? = some g ∧
      g.name = a.name) :
    ∃ e g, t.entry a.handle = .ok e ∧ t.module.functions[e.index]? = some g ∧ g.name = a.name := by
  obtain ⟨e', g, he, hg, hname⟩ := h
  refine ⟨e', g, ?_, ?_, hname⟩
  · rw [Session.entry, hid, hfunctions]
    exact Handle.resolve_push he e
  · rw [hmodule, List.getElem?_append_left (List.getElem?_eq_some_iff.1 hg).1, hg]

/-- A function is accepted that does what its item means. -/
theorem Sound.accept {l : Listing} (hl : l.Sound) {t : Session} {e : FunctionEntry} {g : Function}
    {name : String} {d : Definition} (hu : l.session.poisonedBy = none) (hid : t.id = l.session.id)
    (hfunctions : t.functions = l.session.functions.push e)
    (hplace : e.index = l.session.module.functions.length)
    (hmodule : t.module.functions = l.session.module.functions ++ [g])
    (hnew : l.session.module.find? name = none)
    (hrealizes : Realizes (Callable l.session name) g name d) :
    Sound ⟨t, l.accepted ++ [⟨name, d, ⟨l.session.id, l.session.functions.size⟩⟩]⟩ := by
  obtain ⟨gs, rest, hlive, hrest, hrealized⟩ := hl.realized
  obtain rfl := hrest hu
  rw [List.append_nil] at hlive
  have hnames : gs.map Function.name = l.names := names_eq hrealized
  have hmem {f : Function} (hf : f ∈ l.session.module.functions) (hflive : f.isLive) :
      f.name ∈ l.names := by
    rw [← hnames]
    exact List.mem_map_of_mem (hlive ▸ List.mem_filter.2 ⟨hf, hflive⟩)
  have hfresh : name ∉ l.names := by
    intro hname
    rw [← hnames] at hname
    obtain ⟨f, hf, hfname⟩ := List.mem_map.1 hname
    rw [← hlive] at hf
    obtain ⟨hf, hflive⟩ := List.mem_filter.1 hf
    exact List.find?_eq_none.1 hnew f hf (Module.isNamed_iff.2 ⟨hflive, hfname⟩)
  refine ⟨⟨gs ++ [g], [], ?_, fun _ => rfl, ?_⟩, fun a ha => ?_, ?_⟩
  · rw [live_append hmodule, hlive]
    simp [hrealizes.live]
  · simp only [names_concat]
    refine List.rel_append (hrealized.imp fun _ _ h => h.mono fun n hn => List.mem_append_left _ hn)
      (.cons (hrealizes.mono fun n hn => ?_) .nil)
    rcases hn with rfl | ⟨f, hf, hflive, rfl⟩
    · simp
    · exact List.mem_append_left _ (hmem hf hflive)
  · rcases List.mem_append.1 ha with ha | ha
    · exact handle_of_push hid hfunctions hmodule (hl.handles a ha)
    · obtain rfl := List.mem_singleton.1 ha
      refine ⟨e, g, ?_, ?_, hrealizes.named⟩
      · rw [Session.entry, hid, hfunctions]
        exact Handle.resolve_push_size e
      · simp [hplace, hmodule]
  · rw [names_concat, List.nodup_append]
    refine ⟨hl.distinct, by simp, fun n hn n' hn' heq => hfresh ?_⟩
    obtain rfl := List.mem_singleton.1 hn'
    exact heq ▸ hn

/-- **To lower an item keeps the invariant.** -/
theorem Sound.add {l : Listing} (hl : l.Sound) (i : Item) : (l.add i).Sound := by
  obtain ⟨gs, rest, hlive, hrest, hrealized⟩ := hl.realized
  have houtcome := item_outcome l.session i
  unfold Listing.add
  generalize item i l.session = r at houtcome
  cases houtcome with
  | refused err t hid hfunctions hmodule hp =>
    refine ⟨⟨gs, rest, ?_, ?_, hrealized⟩, fun a ha => ?_, hl.distinct⟩
    · exact hmodule ▸ hlive
    · exact hp ▸ hrest
    · obtain ⟨e, g, he, hg, hname⟩ := hl.handles a ha
      refine ⟨e, g, ?_, hmodule ▸ hg, hname⟩
      rw [Session.entry, hid, hfunctions]
      exact he
  | dropped err t e f hu hid hfunctions hmodule hgone =>
    -- A function that poisons the session stays live, behind those of the accepted items.
    obtain rfl := hrest hu
    refine ⟨⟨gs, [f].filter Function.isLive, ?_, fun hp => ?_, hrealized⟩, fun a ha => ?_,
      hl.distinct⟩
    · rw [live_append hmodule, hlive, List.append_nil]
    · simp [hgone hp]
    · exact handle_of_push hid hfunctions hmodule (hl.handles a ha)
  | accepted x t e g hu hu' hid hfunctions hplace hmodule hnew hhandle hrealizes =>
    dsimp only
    rw [hhandle]
    exact hl.accept hu hid hfunctions hplace hmodule hnew hrealizes

/-- The invariant survives any number of items. -/
theorem Sound.addAll {l : Listing} (hl : l.Sound) (items : List Item) : (l.addAll items).Sound := by
  induction items generalizing l with
  | nil => exact hl
  | cons i items ih => exact ih (hl.add i)

/-! ### The beginning -/

theorem functionNamed?_eq_none {s : Session} {name : String} (h : s.module.find? name = none) :
    s.functionNamed? name = none := by
  have hindex : s.module.index? name = none := by
    rw [Module.index?, List.findIdx?_eq_none_iff]
    simpa [Module.find?] using h
  simp [Session.functionNamed?, hindex]

/-- Names that no function of a session has, and under which functions of the host can be
declared. -/
structure NewHosts (s : Session) (hosts : List (String × Nat)) : Prop where
  user : ∀ h ∈ hosts, h.1.isEmpty = false ∧ s.wrappers.reserves h.1 = false
  distinct : (hosts.map Prod.fst).Nodup
  new : ∀ h ∈ hosts, s.module.find? h.1 = none

theorem newHosts_start (id : Nat) (o : SessionOptions) (t : Target) :
    NewHosts (Session.start id o t) Eval.hostLibrary where
  user := by
    change ∀ h ∈ Eval.hostLibrary, h.1.isEmpty = false ∧
      NameFamily.reserves { stem := Session.wrapperStem } h.1 = false
    decide +kernel
  distinct := by decide
  new _ _ := rfl

/-- The first of some functions of the host is declared, and the others are new after it. -/
theorem declareHosts_cons {s : Session} {name : String} {arity : Nat} {hosts : List (String × Nat)}
    (hu : s.poisonedBy = none) (h : NewHosts s ((name, arity) :: hosts)) :
    Lower.declareHosts ((name, arity) :: hosts) s =
        Lower.declareHosts hosts (s.declared name arity) ∧
      NewHosts (s.declared name arity) hosts := by
  obtain ⟨huser, hdistinct, hnew⟩ := h
  simp only [List.forall_mem_cons, List.map_cons, List.nodup_cons] at huser hdistinct hnew
  refine ⟨?_, huser.2, hdistinct.2, fun h hh => ?_⟩
  · have hcheck := Session.checkNewName_eq_ok.2 ⟨huser.1.1, hnew.1⟩
    have hdeclare := Session.declareFunction_of_ok hu huser.1.2 hcheck arity
    rw [Lower.declareHosts]
    change (if (s.functionNamed? name).isNone then _ else _ : SessionM Unit) s = _
    rw [if_pos (by simp [functionNamed?_eq_none hnew.1]), Session.andThen_of_ok hdeclare]
  · have hne : h.1 ≠ name := fun heq => hdistinct.1 (heq ▸ List.mem_map_of_mem hh)
    change (s.module.functions ++ [Function.external name arity]).find? _ = none
    rw [List.find?_append, show s.module.functions.find? _ = none from hnew.2 h hh]
    simp [Module.isNamed, Function.external, Function.declare, Ne.symm hne]

/-- Functions of the host are accepted, when their names are new. -/
theorem Sound.declareHosts {hosts : List (String × Nat)} {l : Listing} (hl : l.Sound)
    (hu : l.session.poisonedBy = none) (hhosts : NewHosts l.session hosts) :
    Sound ⟨Session.result (Lower.declareHosts hosts) l.session, l.accepted ++
      (hosts.zipIdx l.session.functions.size).map fun (h, i) =>
        ⟨h.1, .external h.2, ⟨l.session.id, i⟩⟩⟩ := by
  induction hosts generalizing l with
  | nil =>
    rw [List.zipIdx_nil, List.map_nil, List.append_nil]
    exact hl
  | cons h hosts ih =>
    obtain ⟨name, arity⟩ := h
    obtain ⟨hrun, hrest⟩ := declareHosts_cons hu hhosts
    have hresult : Session.result (Lower.declareHosts ((name, arity) :: hosts)) l.session =
        Session.result (Lower.declareHosts hosts) (l.session.declared name arity) := by
      unfold Session.result
      rw [hrun]
    have hnext := hl.accept (t := l.session.declared name arity) (d := .external arity) hu rfl rfl
      rfl rfl (hhosts.new _ List.mem_cons_self)
      ⟨rfl, rfl, Session.arity_external name arity, rfl⟩
    have hsize : (l.session.declared name arity).functions.size = l.session.functions.size + 1 :=
      Array.size_push ..
    have hsound := ih hnext hu hrest
    rw [hsize] at hsound
    rw [hresult, List.zipIdx_cons, List.map_cons, List.append_cons]
    exact hsound

/-- The invariant holds of a new session. -/
theorem sound_start (id : Nat) (o : SessionOptions) (t : Target) (hosts : Bool) :
    (start id o t hosts).Sound := by
  have hempty : Sound ⟨Session.start id o t, []⟩ :=
    ⟨⟨[], [], rfl, fun _ => rfl, .nil⟩, by simp, .nil⟩
  cases hosts with
  | false => exact hempty
  | true => exact hempty.declareHosts rfl (newHosts_start id o t)

/-! ### Calls -/

/-- The first function and the first item with a name belong together. -/
theorem find?_of_realized {known : String → Prop} {gs : List Function} {as : List Accepted}
    (h : List.Forall₂ (fun g a => Realizes known g a.name a.definition) gs as) {name : String}
    (hname : name ∈ as.map Accepted.name) (rest : List Function) :
    ∃ g d, (gs ++ rest).find? (fun f => f.name = name) = some g ∧
      (as.map fun a => (a.name, a.definition)).lookup name = some d ∧ Realizes known g name d := by
  induction h with
  | nil => cases hname
  | @cons g a gs as hr _ ih =>
    by_cases heq : a.name = name
    · subst heq
      exact ⟨g, a.definition, by simp [hr.named], by simp, hr⟩
    · obtain ⟨g', d, hg', hd, hr'⟩ := ih ((List.mem_cons.1 hname).resolve_left (Ne.symm heq))
      refine ⟨g', d, ?_, ?_, hr'⟩
      · rw [List.cons_append, List.find?_cons_of_neg (by simpa [hr.named] using heq), hg']
      · rw [List.map_cons, lookup_cons_of_ne (Ne.symm heq), hd]

/-- A name of the program stands for a function that does what it means. -/
theorem Sound.find? {l : Listing} (hl : l.Sound) {name : String} (hname : name ∈ l.names) :
    ∃ g d, l.session.module.find? name = some g ∧ l.defs.lookup name = some d ∧
      Realizes (· ∈ l.names) g name d := by
  obtain ⟨gs, rest, hlive, _, hrealized⟩ := hl.realized
  rw [Module.find?_eq_head?_live, List.head?_filter, hlive]
  exact find?_of_realized hrealized hname rest

/-- A call in the module does what it does in the program, however deep calls may nest. -/
theorem Sound.callAt {l : Listing} (hl : l.Sound) (depth : Nat) {name : String}
    (hname : name ∈ l.names) :
    Eval.callAt l.session.module depth name = Interpreter.callAt l.defs depth name := by
  -- A body calls functions one level down, so the induction is on the depth.
  induction depth using Nat.strongRecOn generalizing name with
  | ind depth ih =>
    obtain ⟨g, d, hg, hd, hr⟩ := hl.find? hname
    have hmeaning := hr.meaning
    funext args
    rw [Eval.callAt_of_find?_some hg, Interpreter.callAt.eq_def, hd, hr.arity]
    dsimp only
    split
    next => rfl
    next harity =>
      cases d with
      | external k => rw [if_pos hmeaning]
      | function params body =>
        obtain ⟨hext, hstage, henter⟩ := hmeaning
        rw [if_neg (by simp [hext]), if_neg (by simp [hstage])]
        cases depth with
        | zero => rfl
        | succ depth =>
          refine henter _ _ (fun h hh => ih depth (Nat.lt_succ_self depth) hh) args ?_
          exact (not_not.1 harity).symm

/-- A call in the module is a call in the program. -/
theorem Sound.call {l : Listing} (hl : l.Sound) {name : String} (hname : name ∈ l.names)
    (args : List Float) :
    Eval.call l.session.module name args = Interpreter.call l.defs name args := by
  have hcall := congrFun (congrFun (hl.callAt Eval.maxDepth hname) args) ""
  unfold Eval.call Interpreter.call
  cases hresult : Interpreter.callAt l.defs Eval.maxDepth name args "" <;>
    simp only [hcall, hresult]

/-- The item that a name stands for is the one that was accepted under it. -/
theorem Sound.lookup {l : Listing} (hl : l.Sound) {a : Accepted} (ha : a ∈ l.accepted) :
    l.defs.lookup a.name = some a.definition := by
  have hdistinct := hl.distinct
  unfold names at hdistinct
  unfold defs
  generalize l.accepted = as at ha hdistinct ⊢
  induction as with
  | nil => cases ha
  | cons b as ih =>
    rw [List.map_cons, List.nodup_cons] at hdistinct
    rw [List.map_cons]
    rcases List.mem_cons.1 ha with rfl | ha
    · exact List.lookup_cons_self
    · have hne : a.name ≠ b.name := fun heq => hdistinct.1 (heq ▸ List.mem_map_of_mem ha)
      rw [lookup_cons_of_ne hne]
      exact ih ha hdistinct.2

/-- **Lowering preserves meaning.** Whatever items are lowered one by one in a new session, with or
without the host library: every item that is accepted is called under its name in the module of the
session as the interpreter calls it in the program of the accepted items, with the same value or the
same failure and with the same text; and an item without parameters is evaluated by its handle in
the same way. -/
theorem call_lowered (id : Nat) (o : SessionOptions) (t : Target) (hosts : Bool)
    (items : List Item) :
    let l := (start id o t hosts).addAll items
    ∀ a ∈ l.accepted,
      l.defs.lookup a.name = some a.definition ∧
      (∃ g, l.session.function a.handle = .ok g ∧ g.name = a.name) ∧
      (∀ args, Eval.call l.session.module a.name args = Interpreter.call l.defs a.name args) ∧
      evaluate l.session a.handle =
        let (r, out) := Interpreter.call l.defs a.name []
        (r.mapError Eval.Failure.error, out) := by
  intro l a ha
  have hl : l.Sound := (sound_start id o t hosts).addAll items
  have hname : a.name ∈ l.names := List.mem_map_of_mem ha
  obtain ⟨e, g, he, hg, hgname⟩ := hl.handles a ha
  have hfunction : l.session.function a.handle = .ok g := by
    rw [Session.function, he]
    simp [Except.map, Session.functionAt, hg]
  refine ⟨hl.lookup ha, ⟨g, hfunction, hgname⟩, hl.call hname, ?_⟩
  rw [evaluate, hfunction, ← hl.call hname, ← hgname]

/-- A program with a variable that takes the name of a parameter and is changed, a statement that
writes, a comparison, an item that is refused, and an expression that calls. -/
def sample : Listing :=
  (start 0 {} { triple := Target.host, arch := "x86_64", os := "linux" } true).addAll [
    .function ⟨"f", ["x", "y"]⟩ [
      .bind "x" (.binary .add (.var "x") (.number 1.5)),
      .eval (.call "print" [.binary .less (.var "x") (.var "y")]),
      .assign "x" (.binary .mul (.var "x") (.var "y")),
      .ret (.var "x")],
    .function ⟨"f", []⟩ [.ret (.number 0.0)],
    .topLevel (.call "f" [.number 0.5, .call "f" [.number 1.0, .number 2.0]])]

theorem call_lowered_sample :
    (∃ a ∈ sample.accepted, a.name = "__anon_expr" ∧
      Eval.call sample.session.module a.name [] = Interpreter.call sample.defs a.name []) ∧
    Interpreter.call sample.defs "__anon_expr" [] = (.ok 10.0, "0.00\n1.00\n") := by
  have haccepted : ∃ a ∈ sample.accepted, a.name = "__anon_expr" := by decide +kernel
  obtain ⟨a, ha, hname⟩ := haccepted
  exact ⟨⟨a, ha, hname, (call_lowered _ _ _ _ _ a ha).2.2.1 []⟩, by decide +kernel⟩

end Listing

end StraightLine.Lower
