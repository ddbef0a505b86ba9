import StraightLine.Proofs.ItemAcceptance

/-!
# Results that last

An item that is lowered adds a function behind those that are there, or none, and takes no handle
away (`Session.Continues`). What an accepted item calls was there when it was accepted. So a call of
an accepted item gives the same whatever items follow (`Lower.Listing.call_stable`).
-/

namespace StraightLine

/-! ### Sessions that go on -/

/-- The session `t` has the functions of `s`, perhaps with more behind them, and so has it the
handles to functions. -/
structure Session.Continues (s t : Session) : Prop where
  id : t.id = s.id
  handles : s.functions.toList <+: t.functions.toList
  functions : s.module.functions <+: t.module.functions

namespace Session.Continues

variable {s t u : Session}

theorem refl (s : Session) : s.Continues s := ⟨rfl, List.prefix_rfl, List.prefix_rfl⟩

theorem trans (h₁ : s.Continues t) (h₂ : t.Continues u) : s.Continues u :=
  ⟨h₂.id.trans h₁.id, h₁.handles.trans h₂.handles, h₁.functions.trans h₂.functions⟩

/-- A function is added at the end. -/
theorem push {e : FunctionEntry} {f : Function} (hid : t.id = s.id)
    (hhandles : t.functions = s.functions.push e)
    (hfunctions : t.module.functions = s.module.functions ++ [f]) : s.Continues t where
  id := hid
  handles := by
    rw [hhandles, Array.toList_push]
    exact List.prefix_append ..
  functions := by
    rw [hfunctions]
    exact List.prefix_append ..

/-- A handle goes on standing for the same function. -/
theorem function (h : s.Continues t) {f : FunctionId} {e : FunctionEntry} {g : Function}
    (he : s.entry f = .ok e) (hg : s.module.functions[e.index]? = some g) :
    s.function f = .ok g ∧ t.function f = .ok g := by
  have hentry : t.entry f = .ok e := by
    unfold Session.entry Handle.resolve at he ⊢
    rw [h.id]
    split at he
    next hsession =>
      rw [if_pos hsession]
      split at he
      next a ha =>
        cases he
        rw [← Array.getElem?_toList] at ha ⊢
        obtain ⟨hlt, hget⟩ := List.getElem?_eq_some_iff.1 ha
        rw [List.prefix_iff_getElem?.1 h.handles _ hlt, hget]
      next => cases he
    next => cases he
  have hg' : t.module.functions[e.index]? = some g := by
    obtain ⟨hlt, hget⟩ := List.getElem?_eq_some_iff.1 hg
    rw [List.prefix_iff_getElem?.1 h.functions _ hlt, hget]
  constructor
  · simp [Session.function, he, Except.map, functionAt, hg]
  · simp [Session.function, hentry, Except.map, functionAt, hg']

/-- A name goes on standing for the same function. -/
theorem find? (h : s.Continues t) {name : String} {g : Function}
    (hg : s.module.find? name = some g) : t.module.find? name = some g := by
  obtain ⟨rest, hrest⟩ := h.functions
  rw [Module.find?, ← hrest, List.find?_append]
  rw [Module.find?] at hg
  rw [hg, Option.some_or]

end Session.Continues

namespace Lower

/-- A session goes on, whatever becomes of an item. -/
theorem item_continues (s : Session) (i : Item) : s.Continues (Session.result (item i) s) := by
  have houtcome := item_outcome s i
  unfold Session.result
  generalize item i s = r at houtcome
  cases houtcome with
  | refused err t hid hhandles hmodule _ =>
    refine ⟨hid, ?_, ?_⟩
    · rw [hhandles]
    · rw [hmodule]
  | dropped err t e f _ hid hhandles hfunctions _ => exact .push hid hhandles hfunctions
  | accepted x t e g _ _ hid hhandles _ hfunctions _ _ _ => exact .push hid hhandles hfunctions

namespace Listing

theorem add_continues (l : Listing) (i : Item) : l.session.Continues (l.add i).session := by
  rw [add_session]
  exact item_continues l.session i

theorem addAll_continues (l : Listing) (items : List Item) :
    l.session.Continues (l.addAll items).session := by
  induction items generalizing l with
  | nil => exact .refl l.session
  | cons i items ih => exact (l.add_continues i).trans (ih (l.add i))

/-! ### Calls -/

/-- An accepted item calls nothing that was not there, so that a call of it does not change. -/
theorem Sound.callAt_continues {l : Listing} (hl : l.Sound) {t : Session}
    (ht : l.session.Continues t) (depth : Nat) {name : String} (hname : name ∈ l.names) :
    Eval.callAt t.module depth name = Eval.callAt l.session.module depth name := by
  -- A body calls functions one level down, so the induction is on the depth.
  induction depth using Nat.strongRecOn generalizing name with
  | ind depth ih =>
    obtain ⟨g, d, hg, _, hr⟩ := hl.find? hname
    have hmeaning := hr.meaning
    funext args
    rw [Eval.callAt_of_find?_some hg, Eval.callAt_of_find?_some (ht.find? hg)]
    split
    next => rfl
    next harity =>
      rw [hr.arity, ne_eq, not_not] at harity
      cases d with
      | external k => rw [if_pos hmeaning, if_pos hmeaning]
      | function params body =>
        obtain ⟨hext, hstage, henter⟩ := hmeaning
        simp only [hext, hstage, ne_eq, not_true, if_false, Bool.false_eq_true]
        cases depth with
        | zero => rfl
        | succ depth =>
          have hcallee : ∀ n, n ∈ l.names →
              Eval.callAt t.module depth n = Eval.callAt l.session.module depth n :=
            fun n hn => ih depth (Nat.lt_succ_self depth) hn
          exact (henter _ _ hcallee args harity.symm).trans
            (henter _ _ (fun _ _ => rfl) args harity.symm).symm

/-- A call of an accepted item does not change. -/
theorem Sound.call_continues {l : Listing} (hl : l.Sound) {t : Session}
    (ht : l.session.Continues t) {name : String} (hname : name ∈ l.names) (args : List Float) :
    Eval.call t.module name args = Eval.call l.session.module name args := by
  rw [Eval.call, Eval.call, hl.callAt_continues ht Eval.maxDepth hname]

/-- The evaluation of an accepted item by its handle does not change. -/
theorem Sound.evaluate_continues {l : Listing} (hl : l.Sound) {t : Session}
    (ht : l.session.Continues t) {a : Accepted} (ha : a ∈ l.accepted) :
    evaluate t a.handle = evaluate l.session a.handle := by
  obtain ⟨e, g, he, hg, hgname⟩ := hl.handles a ha
  obtain ⟨hfunction, hfunction'⟩ := ht.function he hg
  have hname : g.name ∈ l.names := hgname ▸ List.mem_map_of_mem ha
  rw [evaluate, evaluate, hfunction, hfunction']
  dsimp only
  rw [hl.call_continues ht hname]

/-! ### Expressions one by one -/

/-- The handles to the top-level expressions among items that are accepted, in order. -/
def topLevels (l : Listing) : List Item → List FunctionId
  | [] => []
  | i :: rest =>
    match item i l.session with
    | .ok (.topLevel f) _ => f :: topLevels (l.add i) rest
    | _ => topLevels (l.add i) rest

/-- What the top-level expressions among items give, each evaluated as soon as it is accepted. -/
def evaluations (l : Listing) : List Item → List (Except Error Float × String)
  | [] => []
  | i :: rest =>
    match item i l.session with
    | .ok (.topLevel f) s => evaluate s f :: evaluations (l.add i) rest
    | _ => evaluations (l.add i) rest

/-- To evaluate expressions at once or after all items makes no difference. -/
theorem Sound.evaluations_eq {l : Listing} (hl : l.Sound) (items : List Item) :
    l.evaluations items = (l.topLevels items).map (evaluate (l.addAll items).session) := by
  induction items generalizing l with
  | nil => rfl
  | cons i items ih =>
    have hrest := ih (hl.add i)
    rw [evaluations, topLevels]
    cases hitem : item i l.session with
    | error err s => exact hrest
    | ok x s =>
      cases x with
      | function f => exact hrest
      | external f => exact hrest
      | topLevel f =>
        have hadd : l.add i =
            ⟨s, l.accepted ++ [⟨itemName l.session i, itemDefinition i, f⟩]⟩ := by
          rw [Listing.add, hitem]
          rfl
        have hmem : ⟨itemName l.session i, itemDefinition i, f⟩ ∈ (l.add i).accepted := by
          simp [hadd]
        have hlast := (hl.add i).evaluate_continues ((l.add i).addAll_continues items) hmem
        have hnow : (l.add i).session = s := by rw [hadd]
        rw [hnow] at hlast
        exact List.cons_eq_cons.2 ⟨hlast.symm, hrest⟩

/-- **What an accepted item gives does not change.** Whatever items were lowered before in a new
session, with or without the host library, and whatever items follow, accepted or refused: every
item accepted so far is called by name with the same value or the same failure and the same text as
before, and is evaluated alike by its handle. So it does not matter whether top-level expressions
are evaluated one by one, each when it is accepted, or all in the end. -/
theorem call_stable (id : Nat) (o : SessionOptions) (target : Target) (hosts : Bool)
    (items more : List Item) :
    let l := (start id o target hosts).addAll items
    let l' := l.addAll more
    (∀ a ∈ l.accepted,
      (∀ args, Eval.call l'.session.module a.name args = Eval.call l.session.module a.name args) ∧
      evaluate l'.session a.handle = evaluate l.session a.handle) ∧
    l.evaluations more = (l.topLevels more).map (evaluate l'.session) := by
  intro l l'
  have hl : l.Sound := (sound_start id o target hosts).addAll items
  have hcontinues : l.session.Continues l'.session := l.addAll_continues more
  refine ⟨fun a ha => ⟨fun args => ?_, ?_⟩, hl.evaluations_eq more⟩
  · exact hl.call_continues hcontinues (List.mem_map_of_mem ha) args
  · exact hl.evaluate_continues hcontinues ha

/-- An expression keeps its value when a second function of a name that it calls is refused and
another expression follows; both are evaluated at once or in the end. -/
theorem call_stable_sample :
    let target : Target := { triple := Target.host, arch := "x86_64", os := "linux" }
    let l := (start 0 {} target true).addAll [
      .function ⟨"f", ["x"]⟩ [.eval (.call "print" [.var "x"]),
        .ret (.binary .add (.var "x") (.number 1.0))],
      .topLevel (.call "f" [.number 0.5])]
    let more : List Item := [.function ⟨"f", ["x"]⟩ [.ret (.number 0.0)],
      .topLevel (.call "f" [.call "__anon_expr" []])]
    (∃ a ∈ l.accepted, a.name = "__anon_expr" ∧
      Eval.call (l.addAll more).session.module a.name [] = Eval.call l.session.module a.name []) ∧
    Eval.call l.session.module "__anon_expr" [] = (.ok 1.5, "0.50\n") ∧
    l.evaluations more = (l.topLevels more).map (evaluate (l.addAll more).session) ∧
    l.evaluations more = [(.ok 2.5, "0.50\n1.50\n")] := by
  intro target l more
  obtain ⟨hcalls, hevaluations⟩ := call_stable 0 {} target true [
    .function ⟨"f", ["x"]⟩ [.eval (.call "print" [.var "x"]),
      .ret (.binary .add (.var "x") (.number 1.0))],
    .topLevel (.call "f" [.number 0.5])] more
  obtain ⟨a, ha, hname⟩ : ∃ a ∈ l.accepted, a.name = "__anon_expr" := by decide +kernel
  exact ⟨⟨a, ha, hname, (hcalls a ha).1 []⟩, by decide +kernel, hevaluations, by decide +kernel⟩

end Listing

end Lower

end StraightLine
