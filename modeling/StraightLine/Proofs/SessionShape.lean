import StraightLine.Proofs.SessionLifecycle

/-!
# The shape of what sessions build

At any time a function of a session looks as its stage says (`Function.Phase`): while it takes
instructions it has one block without a return, when it is ended the block ends with its only
return, and when it is abandoned it has no code. Live functions have different names, and every
function has exactly one handle (`Session.Formed`, which every step keeps).
-/

namespace StraightLine

/-! ### Functions -/

/-- Instructions of which none is a terminator. -/
def Code.Open (is : List Instr) : Prop := ∀ i ∈ is, i.isTerminator = false

theorem Code.Open.concat {is : List Instr} (h : Open is) {i : Instr}
    (hi : i.isTerminator = false) : Open (is ++ [i]) := by
  intro j hj
  rcases List.mem_append.1 hj with hj | hj
  · exact h j hj
  · rwa [List.mem_singleton.1 hj]

theorem Code.Open.closed {is : List Instr} (h : Open is) {i : Instr} (hi : i.isTerminator) :
    Closed (is ++ [i]) := by
  induction is with
  | nil => simp [Closed, hi]
  | cons j is ih =>
    have hj := h j List.mem_cons_self
    have his := ih fun k hk => h k (List.mem_cons_of_mem j hk)
    simpa [Closed, hj] using his

theorem Code.Open.not_closed {is : List Instr} (h : Open is) : ¬ Closed is := by
  intro hclosed
  obtain ⟨last, hlast, hterm⟩ := hclosed.exists_getLast
  have hlast := h last (List.mem_of_getLast? hlast)
  rw [hterm] at hlast
  cases hlast

namespace Function

/-- What a function looks like at a stage. -/
inductive Phase (f : Function) : Stage → Prop
  | declared (external : f.isExternal) (bodiless : f.blocks = []) : Phase f .declared
  | building (b : Block) (internal : f.isExternal = false) (single : f.blocks = [b])
      (isOpen : Code.Open b.instrs) : Phase f .building
  | ended (stage : Stage) (b : Block) (done : stage = .terminated ∨ stage = .verified)
      (internal : f.isExternal = false) (single : f.blocks = [b])
      (closed : Code.Closed b.instrs) : Phase f stage
  | abandoned (bodiless : f.blocks = []) : Phase f .abandoned

/-- A function as sessions build it. -/
structure Formed (f : Function) : Prop where
  returns : f.returnType = .double
  numbered : f.params.map Prod.fst = List.range f.arity
  phase : f.Phase f.stage

namespace Formed

variable {f : Function}

theorem single (h : f.Formed) : f.blocks.length ≤ 1 := by
  have hphase := h.phase
  generalize f.stage = stage at hphase
  cases hphase with
  | declared _ hb => simp [hb]
  | building b _ hb _ => simp [hb]
  | ended _ b _ _ hb _ => simp [hb]
  | abandoned hb => simp [hb]

theorem of_building (h : f.Formed) (hstage : f.stage = .building) :
    ∃ b, f.isExternal = false ∧ f.blocks = [b] ∧ Code.Open b.instrs := by
  have hphase := h.phase
  rw [hstage] at hphase
  cases hphase with
  | building b hext hb hopen => exact ⟨b, hext, hb, hopen⟩
  | ended _ b hdone _ _ _ => simp at hdone

/-- A live function is well formed exactly when it takes no more instructions, if these are in
order. -/
theorem wellFormed_iff (h : f.Formed) (hlive : f.isLive) {A : Arities}
    (htyped : Code.Typed A f.paramTypes f.instrs) : f.WellFormed A ↔ f.stage ≠ .building := by
  constructor
  · intro hwf hstage
    obtain ⟨b, _, hb, hopen⟩ := h.of_building hstage
    exact hopen.not_closed (hwf.closed b (by simp [hb]))
  · intro hstage
    have hphase := h.phase
    have habandoned : f.stage ≠ .abandoned := by simpa [isLive] using hlive
    generalize f.stage = stage at hphase hstage habandoned
    cases hphase with
    | declared hext hb =>
      exact ⟨h.returns, by simp [hext, hb], fun _ => h.numbered, by simp [hb], htyped⟩
    | building => exact absurd rfl hstage
    | ended _ b _ hext hb hclosed =>
      exact ⟨h.returns, by simp [hext, hb], fun _ => h.numbered, by simpa [hb] using hclosed,
        htyped⟩
    | abandoned => exact absurd rfl habandoned

end Formed

theorem numberFrom_fst (n : Nat) (params : List String) :
    (numberFrom n params).map Prod.fst = List.range' n params.length := by
  induction params generalizing n with
  | nil => rfl
  | cons p ps ih => simp [numberFrom, ih, List.range'_succ]

theorem declare_fst (name : String) (params : List String) :
    (declare name params).params.map Prod.fst = List.range (declare name params).arity := by
  rw [Session.arity_declare, List.range_eq_range']
  exact numberFrom_fst 0 params

end Function

/-! ### Sessions -/

namespace Session

/-- A session whose functions look as their stages say. -/
structure Formed (s : Session) : Prop where
  functions : ∀ f ∈ s.module.functions, f.Formed
  distinct : (s.module.live.map Function.name).Nodup
  /-- Every function has one handle. -/
  entries : s.functions.toList.map FunctionEntry.index = List.range s.module.functions.length

/-- The function at another place is not changed. -/
theorem functions_modify_of_ne {m : Module} {place j : Nat} (h : place ≠ j)
    (g : Function → Function) : (m.modify place g).functions[j]? = m.functions[j]? := by
  simp [Module.modify, h]

/-- After a change, a function is the changed one or one of the others. -/
theorem functions_modify_cases {m : Module} {place j : Nat} {g : Function → Function} {f : Function}
    (h : (m.modify place g).functions[j]? = some f) :
    (place = j ∧ ∃ f', m.functions[place]? = some f' ∧ g f' = f) ∨
      place ≠ j ∧ m.functions[j]? = some f := by
  by_cases hplace : place = j
  · subst hplace
    simp only [Module.modify, List.getElem?_modify_eq] at h
    exact .inl ⟨rfl, Option.map_eq_some_iff.1 h⟩
  · rw [functions_modify_of_ne hplace] at h
    exact .inr ⟨hplace, h⟩

/-- What holds of all functions, and of the changed one after the change, holds of all after it. -/
theorem forall_modify {P : Function → Prop} {m : Module} {place : Nat} {g : Function → Function}
    (hall : ∀ f ∈ m.functions, P f) (hnew : ∀ f, m.functions[place]? = some f → P (g f)) :
    ∀ f ∈ (m.modify place g).functions, P f := by
  intro f hf
  obtain ⟨j, hj⟩ := List.mem_iff_getElem?.1 hf
  rcases functions_modify_cases hj with ⟨_, f', hf', rfl⟩ | ⟨_, hj⟩
  · exact hnew f' hf'
  · exact hall f (List.mem_of_getElem? hj)

/-- A change that keeps the name of a function, and brings none back to life, adds no name. -/
theorem names_modify_sublist {m : Module} {place : Nat} {g : Function → Function}
    (h : ∀ f, m.functions[place]? = some f → (g f).name = f.name ∧ ((g f).isLive → f.isLive)) :
    ((m.modify place g).live.map Function.name).Sublist (m.live.map Function.name) := by
  simp only [Module.live, Module.modify]
  generalize m.functions = fs at h
  induction fs generalizing place with
  | nil => cases place <;> simp
  | cons f fs ih =>
    cases place with
    | zero =>
      obtain ⟨hname, hlive⟩ := h f rfl
      rw [List.modify_zero_cons, List.filter_cons, List.filter_cons]
      cases hg : (g f).isLive with
      | true => simp [hlive hg, hname]
      | false => cases f.isLive <;> simp
    | succ place =>
      have hrest := ih h
      rw [List.modify_succ_cons, List.filter_cons, List.filter_cons]
      cases f.isLive with
      | true => exact hrest.cons_cons f.name
      | false => exact hrest

namespace Formed

variable {s : Session}

theorem start (id : Nat) (o : SessionOptions) (t : Target) : (Session.start id o t).Formed :=
  ⟨by simp [Session.start, Session.module], by simp [Session.start, Session.module, Module.live],
    by simp [Session.start, Session.module]⟩

/-- A session stays formed when a function is changed into one that looks as its stage says. -/
theorem changed (hs : s.Formed) {place : Nat} {g : Function → Function}
    (h : ∀ f, s.module.functions[place]? = some f →
      (g f).Formed ∧ (g f).name = f.name ∧ ((g f).isLive → f.isLive)) :
    (s.changed place g).Formed where
  functions := forall_modify hs.functions fun f hf => (h f hf).1
  distinct := hs.distinct.sublist (names_modify_sublist fun f hf => (h f hf).2)
  entries := by
    rw [show (s.changed place g).functions = s.functions from rfl, hs.entries]
    congr 1
    exact (List.length_modify ..).symm

/-- A function with a new name is added at the end. -/
theorem added (hs : s.Formed) {t : Session} {f : Function} {params : List ValueId} (hf : f.Formed)
    (hname : s.module.find? f.name = none) (hmodule : t.module = s.module.add f)
    (hentries : t.functions = s.functions.push ⟨s.module.functions.length, params⟩) :
    t.Formed where
  functions := by
    intro g hg
    rw [hmodule] at hg
    rcases List.mem_append.1 hg with hg | hg
    · exact hs.functions g hg
    · rwa [List.mem_singleton.1 hg]
  distinct := by
    have hdistinct := Module.nodup_names_iff.1 hs.distinct
    rw [hmodule, Module.nodup_names_iff]
    refine List.pairwise_append.2 ⟨hdistinct, List.pairwise_singleton .., ?_⟩
    intro g hg f' hf' hlive _ heq
    rw [List.mem_singleton.1 hf'] at heq
    exact List.find?_eq_none.1 hname g hg (Module.isNamed_iff.2 ⟨hlive, heq⟩)
  entries := by
    rw [hmodule, hentries, Array.toList_push, List.map_append, hs.entries]
    simp [Module.add, List.range_succ]

/-- A place that is under a handle is one of the module. -/
theorem lt_of_mem (hs : s.Formed) {e : FunctionEntry} (he : e ∈ s.functions) :
    e.index < s.module.functions.length := by
  have hmem := List.mem_map_of_mem (f := FunctionEntry.index) (Array.mem_toList_iff.2 he)
  rw [hs.entries] at hmem
  exact List.mem_range.1 hmem

theorem functionAt (hs : s.Formed) {e : FunctionEntry} (he : e ∈ s.functions) :
    s.module.functions[e.index]? = some (s.functionAt e.index) := by
  rw [Session.functionAt, List.getElem?_eq_getElem (hs.lt_of_mem he)]
  rfl

/-- Every function has a handle. -/
theorem exists_entry (hs : s.Formed) {place : Nat} (h : place < s.module.functions.length) :
    ∃ handle e, s.entry handle = .ok e ∧ e.index = place := by
  have hget : (s.functions.toList.map FunctionEntry.index)[place]? = some place := by
    rw [hs.entries, List.getElem?_range h]
  obtain ⟨e, he, hplace⟩ := Option.map_eq_some_iff.1 (List.getElem?_map .. ▸ hget)
  refine ⟨⟨s.id, place⟩, e, ?_, hplace⟩
  rw [Array.getElem?_toList] at he
  simp [entry, Handle.resolve, he]

/-- The function under the cursor has one block, and takes more instructions. -/
theorem site (hs : s.Formed) {c : Cursor} {f : Function} {b : Block} (hsite : s.Site c f b) :
    f.isExternal = false ∧ f.instrs = b.instrs ∧ Code.Open b.instrs ∧
      ∀ i, (f.appendTo c.block i).blocks = [{ b with instrs := b.instrs ++ [i] }] := by
  have hf := hs.functions f (List.mem_of_getElem? hsite.function)
  obtain ⟨b', hext, hb', hopen⟩ := hf.of_building hsite.building
  have hblock := hsite.block
  simp only [Function.block?, hb', List.find?_cons, List.find?_nil] at hblock
  split at hblock
  next hid =>
    cases hblock
    refine ⟨hext, by simp [Function.instrs, hb'], hopen, ?_⟩
    intro i
    have hid : b.id = c.block := by simpa using hid
    simp [Function.appendTo, Function.appendToBlocks, hb', hid]
  next => cases hblock

/-- An instruction is put behind the open block under the cursor. -/
theorem appended (hs : s.Formed) {c : Cursor} {f : Function} {b : Block} (hsite : s.Site c f b)
    {i : Instr} (hi : i.isTerminator = false) : (s.appended c i).Formed := by
  obtain ⟨hext, _, hopen, hblocks⟩ := hs.site hsite
  show (s.changed c.function (·.appendTo c.block i)).Formed
  apply hs.changed
  intro f' hf'
  obtain rfl : f' = f := Option.some.inj (hf'.symm.trans hsite.function)
  have hf := hs.functions f' (List.mem_of_getElem? hf')
  refine ⟨⟨hf.returns, hf.numbered, ?_⟩, rfl, fun h => h⟩
  rw [show (f'.appendTo c.block i).stage = .building from hsite.building]
  exact .building _ hext (hblocks i) (hopen.concat hi)

/-- The block under the cursor is ended by a return. -/
theorem returned (hs : s.Formed) {c : Cursor} {f : Function} {b : Block} (hsite : s.Site c f b)
    (v : Operand) : (s.returned c v).Formed := by
  obtain ⟨hext, _, hopen, hblocks⟩ := hs.site hsite
  rw [returned_eq]
  apply hs.changed
  intro f' hf'
  obtain rfl : f' = f := Option.some.inj (hf'.symm.trans hsite.function)
  have hf := hs.functions f' (List.mem_of_getElem? hf')
  refine ⟨⟨hf.returns, hf.numbered, ?_⟩, rfl, fun _ => ?_⟩
  · exact .ended _ _ (.inl rfl) hext (hblocks (.ret v)) (hopen.closed rfl)
  · simp [Function.isLive, hsite.building]

/-- Steps that build code keep a session formed. -/
theorem codeStep (hs : s.Formed) {t : Session} (h : s.CodeStep t) : t.Formed := by
  have terminator {c : Cursor} {b : Block} {i : Instr} (h : s.Admits c.function b i) :
      i.isTerminator = false := by
    cases h <;> rfl
  cases h with
  | skip _ => exact ⟨hs.functions, hs.distinct, hs.entries⟩
  | define c f b i hsite hadmits _ =>
    have h := hs.appended hsite (terminator hadmits)
    exact ⟨h.functions, h.distinct, h.entries⟩
  | append c f b i hsite hadmits _ => exact hs.appended hsite (terminator hadmits)
  | float x => exact ⟨hs.functions, hs.distinct, hs.entries⟩
  | string bytes => exact ⟨hs.functions, hs.distinct, hs.entries⟩
  | value c f b i r t _ _ _ _ => exact ⟨hs.functions, hs.distinct, hs.entries⟩
  | slot c f b v r name _ _ => exact ⟨hs.functions, hs.distinct, hs.entries⟩

/-- Steps that take nothing away keep a session formed. -/
theorem growStep (hs : s.Formed) {t : Session} (h : s.GrowStep t) : t.Formed := by
  cases h with
  | code t h => exact hs.codeStep h
  | name _ => exact ⟨hs.functions, hs.distinct, hs.entries⟩
  | opened name params _ hnew _ _ =>
    refine hs.added (f := { Function.declare name params with
      stage := .building
      blocks := [{ id := s.draft.labels.next, name := entryName }] }) ?_
      (checkNewName_eq_ok.1 hnew).2 rfl rfl
    exact ⟨rfl, Function.declare_fst name params, .building _ rfl rfl (by simp [Code.Open])⟩
  | declared name arity _ hnew _ =>
    refine hs.added (f := Function.external name arity) ?_ (checkNewName_eq_ok.1 hnew).2 rfl rfl
    exact ⟨rfl, Function.declare_fst name _, .declared rfl rfl⟩
  | ended c f b v hsite _ => exact hs.returned hsite v
  | verified e f _ _ hfunction hstage hext hcorrect =>
    apply hs.changed
    intro f' hf'
    obtain rfl : f' = f := Option.some.inj (hf'.symm.trans hfunction)
    have hf := hs.functions f' (List.mem_of_getElem? hf')
    have hwf := Module.verifyFunction_eq_ok.1 hcorrect
    refine ⟨⟨hf.returns, hf.numbered, ?_⟩, rfl, fun _ => by simpa [Function.isLive] using hstage.2⟩
    -- A function with a body has one block, which must end with a return.
    obtain ⟨b, hb⟩ : ∃ b, f'.blocks = [b] := by
      rw [← List.length_eq_one_iff]
      have hbody : f'.blocks ≠ [] := fun h => by simpa [hext] using hwf.bodiless.2 h
      have hsingle := hf.single
      have hpos := List.length_pos_iff.2 hbody
      omega
    exact .ended _ b (.inr rfl) hext hb (hwf.closed b (by simp [hb]))
  | poisoned e f err _ _ _ _ => exact ⟨hs.functions, hs.distinct, hs.entries⟩

/-- An abandoned function has no code left. -/
theorem withdrawn (hs : s.Formed) (place : Nat) : (s.withdrawn place).Formed := by
  have h : (s.changed place fun f => { f with stage := .abandoned, blocks := [] }).Formed := by
    apply hs.changed
    intro f hf
    have hf := hs.functions f (List.mem_of_getElem? hf)
    exact ⟨⟨hf.returns, hf.numbered, .abandoned rfl⟩, rfl, fun h => by simp [Function.isLive] at h⟩
  unfold Session.withdrawn
  split
  · exact ⟨h.functions, h.distinct, h.entries⟩
  · exact h

/-- **Every step keeps a session formed.** -/
theorem step (hs : s.Formed) {t : Session} (h : s.Step t) : t.Formed := by
  cases h with
  | grow t h => exact hs.growStep h
  | withdrawn e _ _ _ => exact hs.withdrawn e.index

theorem growSteps (hs : s.Formed) {t : Session} (h : s.GrowSteps t) : t.Formed := by
  induction h with
  | refl => exact hs
  | tail _ hstep ih => exact ih.growStep hstep

/-- **After every history a session is formed.** -/
theorem after (id : Nat) (o : SessionOptions) (t : Target) (history : List Request) :
    ((Session.start id o t).after history).Formed :=
  after_induction (fun _ _ hs h => hs.step h) (start id o t) history

end Formed

end Session

end StraightLine
