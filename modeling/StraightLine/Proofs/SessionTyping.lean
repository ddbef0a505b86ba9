import StraightLine.Proofs.SessionAbandon
import StraightLine.Proofs.SessionOptions

/-!
# What sessions build is correct

Every handle stands for an operand of its type, and new temps are new. So every instruction that
requests put under the cursor is in order there (`Session.Typed`), whatever else is built in the
meantime: a function fails verification only because it is not ended, as long as the functions that
it calls are there. Hence it is known when a session can be closed (`Session.built_correct`).
-/

namespace StraightLine

open Verify (OperandOk Types)

/-! ### Types of temps -/

namespace Function

/-- The types of the temps of a function. -/
def types (f : Function) : Types := Code.typesAfter f.paramTypes f.instrs

/-- The parameters of a function are its first temps. -/
theorem lookup_paramTypes {f : Function} (h : f.params.map Prod.fst = List.range f.arity)
    (id : Nat) :
    f.paramTypes.lookup id = if id < f.arity then some .double else none := by
  have hparams : f.paramTypes = (f.params.map Prod.fst).map fun i => (i, Ty.double) := by
    simp [paramTypes, Function.comp_def]
  rw [hparams, h]
  generalize f.arity = n
  induction n with
  | zero => simp
  | succ n ih =>
    rw [List.range_succ, List.map_append, List.lookup_append, ih]
    by_cases hid : id = n
    · simp [hid]
    · have hlt : id < n + 1 ↔ id < n := by omega
      simp [hlt, lookup_cons_of_ne hid]

end Function

namespace Session

variable {s t : Session}

/-! ### Operands in their places -/

/-- An operand has a type in the function at a place, as long as that takes instructions. -/
def Fits (s : Session) (place : Nat) (ty : Ty) (v : Operand) : Prop :=
  ∃ f, s.module.functions[place]? = some f ∧ (f.stage = .building → OperandOk f.types ty v)

/-- An operand keeps its type while its function grows. -/
theorem Fits.modified {place p : Nat} {ty : Ty} {v : Operand} (h : s.Fits p ty v)
    {g : Function → Function} (hmodule : t.module = s.module.modify place g)
    (hg : ∀ f, s.module.functions[place]? = some f → (g f).stage = .building →
      f.stage = .building ∧ Types.Extends f.types (g f).types) : t.Fits p ty v := by
  obtain ⟨f, hf, hv⟩ := h
  by_cases hplace : place = p
  · subst hplace
    refine ⟨g f, by rw [hmodule, functions_modify hf], fun hstage => ?_⟩
    obtain ⟨hbuilding, hextends⟩ := hg f hf hstage
    exact (hv hbuilding).mono hextends
  · exact ⟨f, by rw [hmodule, functions_modify_of_ne hplace, hf], hv⟩

theorem Fits.added {p : Nat} {ty : Ty} {v : Operand} (h : s.Fits p ty v) {g : Function}
    (hmodule : t.module = s.module.add g) : t.Fits p ty v := by
  obtain ⟨f, hf, hv⟩ := h
  refine ⟨f, ?_, hv⟩
  rw [hmodule]
  exact (List.getElem?_append_left (List.getElem?_eq_some_iff.1 hf).1).trans hf

/-- The temps from a number on are new in the function under the cursor. -/
def Fresh (s : Session) : Prop :=
  ∀ c f, s.draft.cursor = some c → s.module.functions[c.function]? = some f →
    f.stage = .building → ∀ id, s.draft.temps.next ≤ id → f.types.lookup id = none

/-- A session whose instructions are in order, and whose handles stand for operands of their
types. -/
structure Typed (s : Session) : Prop where
  code : ∀ f ∈ s.module.functions, f.isLive → Code.Typed s.module.arities f.paramTypes f.instrs
  constants : ∀ e ∈ s.values, e.owner = none → ∀ Γ, OperandOk Γ e.type e.operand
  locals : ∀ e ∈ s.values, ∀ p, e.owner = some p → s.Fits p e.type e.operand
  slots : ∀ e ∈ s.slots, s.Fits e.owner .slot e.ptr
  fresh : s.Fresh

namespace Typed

theorem start (id : Nat) (o : SessionOptions) (t : Target) : (Session.start id o t).Typed := by
  constructor <;> simp [Session.start, Session.module, Fresh]

theorem offers (hs : s.Typed) {place : Nat} {f : Function} {ty : Ty} {v : Operand}
    (hf : s.module.functions[place]? = some f) (hstage : f.stage = .building)
    (h : s.Offers place ty v) : OperandOk f.types ty v := by
  obtain ⟨e, he, rfl, rfl, howner | howner⟩ := h
  · exact hs.constants e he howner f.types
  · obtain ⟨f', hf', hv⟩ := hs.locals e he place howner
    obtain rfl := Option.some.inj (hf.symm.trans hf')
    exact hv hstage

theorem offersSlot (hs : s.Typed) {place : Nat} {f : Function} {v : Operand}
    (hf : s.module.functions[place]? = some f) (hstage : f.stage = .building)
    (h : s.OffersSlot place v) : OperandOk f.types .slot v := by
  obtain ⟨e, he, rfl, rfl⟩ := h
  obtain ⟨f', hf', hv⟩ := hs.slots e he
  obtain rfl := Option.some.inj (hf.symm.trans hf')
  exact hv hstage

theorem code_site (hs : s.Typed) {c : Cursor} {f : Function} {b : Block} (hsite : s.Site c f b) :
    Code.Typed s.module.arities f.paramTypes f.instrs :=
  hs.code f (List.mem_of_getElem? hsite.function) (by simp [Function.isLive, hsite.building])

/-- What requests put under the cursor is in order there. -/
theorem admits (hs : s.Typed) (hformed : s.Formed) {c : Cursor} {f : Function} {b : Block}
    (hsite : s.Site c f b) {i : Instr} (h : s.Admits c.function b i)
    (hnew : ∀ r, i.result? = some r → s.draft.temps.next ≤ r) :
    i.Ok s.module.arities f.types := by
  have hfresh (r : Nat) (hr : i.result? = some r) : f.types.lookup r = none :=
    hs.fresh c f hsite.cursor hsite.function hsite.building r (hnew r hr)
  have value {ty : Ty} {v : Operand} (hv : s.Offers c.function ty v) : OperandOk f.types ty v :=
    hs.offers hsite.function hsite.building hv
  have slot {v : Operand} (hv : s.OffersSlot c.function v) : OperandOk f.types .slot v :=
    hs.offersSlot hsite.function hsite.building hv
  cases h with
  | alloca r name => exact ⟨rfl, by simp [Instr.wants], hfresh⟩
  | fill v r name hmade hv =>
    refine ⟨trivial, ?_, hfresh⟩
    have hmem : .alloca r .double name ∈ f.instrs := by
      rw [(hformed.site hsite).2.1]
      exact List.mem_of_getLast? hmade
    have hslot : f.types.lookup r = some .slot := (hs.code_site hsite).lookup_result hmem rfl rfl
    simp only [Instr.wants, List.forall_mem_cons]
    exact ⟨value hv, hslot, by simp⟩
  | store v p hv hp =>
    refine ⟨trivial, ?_, hfresh⟩
    simp only [Instr.wants, List.forall_mem_cons]
    exact ⟨value hv, slot hp, by simp⟩
  | load r p hp =>
    refine ⟨rfl, ?_, hfresh⟩
    simp only [Instr.wants, List.forall_mem_cons]
    exact ⟨slot hp, by simp⟩
  | arith r op v w hv hw =>
    refine ⟨trivial, ?_, hfresh⟩
    simp only [Instr.wants, List.forall_mem_cons]
    exact ⟨value hv, value hw, by simp⟩
  | compare r p v w hv hw =>
    refine ⟨trivial, ?_, hfresh⟩
    simp only [Instr.wants, List.forall_mem_cons]
    exact ⟨value hv, value hw, by simp⟩
  | widen r v hv =>
    refine ⟨trivial, ?_, hfresh⟩
    simp only [Instr.wants, List.forall_mem_cons]
    exact ⟨value hv, by simp⟩
  | call r e g vs he hg hlive harity hvs =>
    refine ⟨⟨g.name, rfl, ?_⟩, ?_, hfresh⟩
    · have hmem : g ∈ s.module.live := by
        rw [hg] at hlive ⊢
        exact List.mem_filter.2 ⟨List.mem_of_getElem? (hformed.functionAt he), hlive⟩
      rw [Module.arities_of_mem_live hformed.distinct hmem, harity]
    · intro w hw
      obtain ⟨v, hv, rfl⟩ := List.mem_map.1 hw
      exact value (hvs v hv)

/-- A function is changed, and its instructions stay in order. -/
theorem modified (hs : s.Typed) {place : Nat} {g : Function → Function}
    (hmodule : t.module = s.module.modify place g) (hvalues : t.values = s.values)
    (hslots : t.slots = s.slots)
    (hkept : ∀ f, s.module.functions[place]? = some f →
      (g f).name = f.name ∧ (g f).isLive = f.isLive ∧ (g f).arity = f.arity)
    (hcode : ∀ f, s.module.functions[place]? = some f →
      Code.Typed s.module.arities (g f).paramTypes (g f).instrs)
    (htypes : ∀ f, s.module.functions[place]? = some f → (g f).stage = .building →
      f.stage = .building ∧ Types.Extends f.types (g f).types)
    (hfresh : t.Fresh) : t.Typed where
  code := by
    rw [hmodule, Module.arities_modify hkept]
    exact forall_modify hs.code fun f hf _ => hcode f hf
  constants := hvalues ▸ hs.constants
  locals e he p howner := (hs.locals e (hvalues ▸ he) p howner).modified hmodule htypes
  slots e he := (hs.slots e (hslots ▸ he)).modified hmodule htypes
  fresh := hfresh

theorem types_appendTo (hformed : s.Formed) {c : Cursor} {f : Function} {b : Block}
    (hsite : s.Site c f b) (i : Instr) :
    (f.appendTo c.block i).instrs = f.instrs ++ [i] ∧
      (f.appendTo c.block i).types = i.typesAfter f.types := by
  obtain ⟨_, hinstrs, _, hblocks⟩ := hformed.site hsite
  have happend : (f.appendTo c.block i).instrs = f.instrs ++ [i] := by
    simp [Function.instrs, hblocks i, ← hinstrs]
  refine ⟨happend, ?_⟩
  rw [Function.types, happend, Code.typesAfter_append]
  rfl

/-- An instruction that is in order is put under the cursor. -/
theorem appended (hs : s.Typed) (hformed : s.Formed) {c : Cursor} {f : Function} {b : Block}
    (hsite : s.Site c f b) {i : Instr} (hi : i.Ok s.module.arities f.types)
    (hmodule : t.module = s.module.modify c.function (·.appendTo c.block i))
    (hvalues : t.values = s.values) (hslots : t.slots = s.slots)
    (hcursor : t.draft.cursor = s.draft.cursor)
    (hnext : s.draft.temps.next ≤ t.draft.temps.next)
    (hresult : ∀ r, i.result? = some r → r < t.draft.temps.next) : t.Typed := by
  obtain ⟨hinstrs, htypes⟩ := types_appendTo hformed hsite i
  have heq {f' : Function} (hf' : s.module.functions[c.function]? = some f') : f' = f :=
    Option.some.inj (hf'.symm.trans hsite.function)
  refine hs.modified hmodule hvalues hslots (fun _ _ => ⟨rfl, rfl, rfl⟩) ?_ ?_ ?_
  · intro f' hf'
    obtain rfl := heq hf'
    rw [hinstrs, Code.typed_append]
    exact ⟨hs.code_site hsite, hi, trivial⟩
  · intro f' hf' hstage
    obtain rfl := heq hf'
    rw [htypes]
    exact ⟨hstage, hi.extends⟩
  · intro c' f' hc' hf' _ id hid
    obtain rfl : c' = c := Option.some.inj ((hcursor ▸ hc').symm.trans hsite.cursor)
    rw [hmodule, functions_modify hsite.function] at hf'
    cases hf'
    rw [htypes, Instr.lookup_typesAfter, if_neg]
    · exact hs.fresh c' f hsite.cursor hsite.function hsite.building id (by omega)
    · intro hr
      have := hresult id hr
      omega

/-- The session has a value more, of the type that its handle says. -/
theorem withValue (hs : s.Typed) {e : ValueEntry}
    (hconstant : e.owner = none → ∀ Γ, OperandOk Γ e.type e.operand)
    (hlocal : ∀ p, e.owner = some p → s.Fits p e.type e.operand) : (s.withValue e).Typed where
  code := hs.code
  constants e' he' := (Array.mem_push.1 he').elim (hs.constants e') fun h => h ▸ hconstant
  locals e' he' := (Array.mem_push.1 he').elim (hs.locals e') fun h => h ▸ hlocal
  slots := hs.slots
  fresh := hs.fresh

/-- Steps that build code keep a session typed. -/
theorem codeStep (hs : s.Typed) (hformed : s.Formed) (h : s.CodeStep t) : t.Typed := by
  cases h with
  | skip _ =>
    refine ⟨hs.code, hs.constants, hs.locals, hs.slots, ?_⟩
    intro c f hc hf hstage id hid
    exact hs.fresh c f hc hf hstage id (Nat.le_of_succ_le hid)
  | define c f b i hsite hadmits hresult =>
    have hr {r : Nat} (hr : i.result? = some r) : r = s.draft.temps.next :=
      Option.some.inj (hr.symm.trans hresult)
    have hi := hs.admits hformed hsite hadmits fun r h => (hr h).ge
    refine hs.appended hformed hsite hi rfl rfl rfl rfl (Nat.le_succ _) ?_
    intro r h
    rw [hr h]
    exact Nat.lt_succ_self _
  | append c f b i hsite hadmits hresult =>
    have hi := hs.admits hformed hsite hadmits fun r h => by simp [hresult] at h
    exact hs.appended hformed hsite hi rfl rfl rfl rfl (Nat.le_refl _) fun r h => by
      simp [hresult] at h
  | float x => exact hs.withValue (fun _ _ => rfl) (by simp)
  | string bytes => exact hs.withValue (fun _ _ => rfl) (by simp)
  | value c f b i r ty hsite hlast hresult htype =>
    refine hs.withValue (by simp) fun p hp => ?_
    cases hp
    refine ⟨f, hsite.function, fun _ => ?_⟩
    have hmem : i ∈ f.instrs := by
      rw [(hformed.site hsite).2.1]
      exact List.mem_of_getLast? hlast
    exact (hs.code_site hsite).lookup_result hmem hresult htype
  | slot c f b v r name hsite hlast =>
    refine ⟨hs.code, hs.constants, hs.locals, ?_, hs.fresh⟩
    intro e he
    rcases Array.mem_push.1 he with he | rfl
    · exact hs.slots e he
    · refine ⟨f, hsite.function, fun _ => ?_⟩
      have hmem : .store v (.temp r) ∈ f.instrs := by
        rw [(hformed.site hsite).2.1]
        exact List.mem_of_getLast? hlast
      exact (hs.code_site hsite).operandOk hmem (w := (.slot, .temp r)) (by simp [Instr.wants])

/-- A function without code is added. -/
theorem added (hs : s.Typed) {g : Function} (hg : g.instrs = [])
    (hmodule : t.module = s.module.add g) (hslots : t.slots = s.slots)
    (hvalues : ∀ e ∈ t.values, e ∈ s.values ∨
      ∃ p, e.owner = some p ∧ t.Fits p e.type e.operand) (hfresh : t.Fresh) : t.Typed where
  code f hf hlive := by
    rw [hmodule] at hf ⊢
    rcases List.mem_append.1 hf with hf | hf
    · exact (hs.code f hf hlive).of_callees fun _ _ _ _ _ hk => Module.arities_add hk g
    · rw [List.mem_singleton.1 hf, hg]
      trivial
  constants e he howner := by
    rcases hvalues e he with he | ⟨p, hp, _⟩
    · exact hs.constants e he howner
    · cases howner.symm.trans hp
  locals e he p howner := by
    rcases hvalues e he with he | ⟨p', hp', hfits⟩
    · exact (hs.locals e he p howner).added hmodule
    · cases howner.symm.trans hp'
      exact hfits
  slots e he := (hs.slots e (hslots ▸ he)).added hmodule
  fresh := hfresh

theorem opened (hs : s.Typed) (name : String) (params : List String) :
    (s.opened name params).Typed := by
  let g : Function := { Function.declare name params with
    stage := .building, blocks := [{ id := s.draft.labels.next, name := entryName }] }
  have hg : (s.opened name params).module.functions[s.module.functions.length]? = some g :=
    List.getElem?_concat_length
  have hinstrs : g.instrs = [] := by simp [Function.instrs, g]
  have htypes (id : Nat) :
      g.types.lookup id = if id < params.length then some .double else none := by
    have hnumbered : g.params.map Prod.fst = List.range g.arity :=
      Function.declare_fst name params
    have harity : g.arity = params.length := arity_declare name params
    rw [Function.types, hinstrs, Code.typesAfter_nil, Function.lookup_paramTypes hnumbered, harity]
  refine hs.added (g := g) hinstrs rfl rfl ?_ ?_
  · intro e he
    rcases Array.mem_append.1 he with he | he
    · exact .inl he
    · obtain ⟨i, hi, rfl⟩ := List.mem_map.1 (List.mem_toArray.1 he)
      refine .inr ⟨_, rfl, g, hg, fun _ => ?_⟩
      show g.types.lookup i = some .double
      rw [htypes, if_pos (List.mem_range.1 hi)]
  · intro c f hc hf _ id hid
    cases hc
    obtain rfl := Option.some.inj (hg.symm.trans hf)
    have hid : params.length ≤ id := hid
    rw [htypes, if_neg (Nat.not_lt.2 hid)]

theorem declared (hs : s.Typed) (name : String) (arity : Nat) : (s.declared name arity).Typed := by
  refine hs.added (g := Function.external name arity) rfl rfl rfl (fun e he => .inl he) ?_
  intro c f hc hf hstage id hid
  have hf : (s.module.functions ++ [Function.external name arity])[c.function]? = some f := hf
  rw [List.getElem?_append] at hf
  split at hf
  · exact hs.fresh c f hc hf hstage id hid
  · -- The declared function takes no instructions.
    obtain rfl := List.mem_singleton.1 (List.mem_of_getElem? hf)
    cases hstage

/-- Where a function takes no more instructions, the others matter. -/
theorem fresh_of_modify (hs : s.Typed) {place : Nat} {g : Function → Function}
    (hmodule : t.module = s.module.modify place g) (hcursor : t.draft.cursor = s.draft.cursor)
    (hnext : t.draft.temps = s.draft.temps) (hg : ∀ f, (g f).stage ≠ .building) : t.Fresh := by
  intro c f hc hf hstage id hid
  rw [hcursor] at hc
  rw [hnext] at hid
  rw [hmodule] at hf
  rcases functions_modify_cases hf with ⟨_, f', _, rfl⟩ | ⟨_, hf⟩
  · exact absurd hstage (hg f')
  · exact hs.fresh c f hc hf hstage id hid

/-- Steps that take nothing away keep a session typed. -/
theorem growStep (hs : s.Typed) (hformed : s.Formed) (h : s.GrowStep t) : t.Typed := by
  cases h with
  | code t h => exact hs.codeStep hformed h
  | name _ => exact ⟨hs.code, hs.constants, hs.locals, hs.slots, hs.fresh⟩
  | opened name params _ _ _ _ => exact hs.opened name params
  | declared name arity _ _ _ => exact hs.declared name arity
  | ended c f b v hsite hv =>
    have heq {f' : Function} (hf' : s.module.functions[c.function]? = some f') : f' = f :=
      Option.some.inj (hf'.symm.trans hsite.function)
    have hi : (Instr.ret v).Ok s.module.arities f.types :=
      ⟨trivial, by simpa [Instr.wants] using hs.offers hsite.function hsite.building hv, by
        simp [Instr.result?]⟩
    rw [returned_eq]
    refine hs.modified rfl rfl rfl ?_ ?_ ?_ (hs.fresh_of_modify rfl rfl rfl (by simp))
    · intro f' hf'
      obtain rfl := heq hf'
      exact ⟨rfl, by simp [Function.isLive, hsite.building], rfl⟩
    · intro f' hf'
      obtain rfl := heq hf'
      show Code.Typed _ f'.paramTypes (f'.appendTo c.block (.ret v)).instrs
      rw [(types_appendTo hformed hsite (.ret v)).1, Code.typed_append]
      exact ⟨hs.code_site hsite, hi, trivial⟩
    · intro f' _ hstage
      cases hstage
  | verified e f _ _ hfunction hstage _ hcorrect =>
    have heq {f' : Function} (hf' : s.module.functions[e.index]? = some f') : f' = f :=
      Option.some.inj (hf'.symm.trans hfunction)
    refine hs.modified rfl rfl rfl ?_ ?_ ?_ (hs.fresh_of_modify rfl rfl rfl (by simp))
    · intro f' hf'
      obtain rfl := heq hf'
      exact ⟨rfl, by simp [Function.isLive, hstage.2], rfl⟩
    · intro f' hf'
      obtain rfl := heq hf'
      exact (Module.verifyFunction_eq_ok.1 hcorrect).typed
    · intro f' _ hstage
      cases hstage
  | poisoned e f err _ _ _ _ =>
    refine ⟨hs.code, hs.constants, hs.locals, hs.slots, ?_⟩
    intro c f hc
    cases hc

theorem growSteps (hs : s.Typed) (hformed : s.Formed) (h : s.GrowSteps t) : t.Typed := by
  induction h with
  | refl => exact hs
  | tail hsteps hstep ih => exact ih.growStep (hformed.growSteps hsteps) hstep

/-- To abandon a function that no other calls keeps a session typed. -/
theorem withdrawn (hs : s.Typed) {place : Nat}
    (hcalled : s.module.isCalledBy Function.isLive place = false) : (s.withdrawn place).Typed := by
  let gone (f : Function) : Function := { f with stage := .abandoned, blocks := [] }
  have hmodule : (s.withdrawn place).module = s.module.modify place gone :=
    (withdrawn_fields s place).2.2.2
  have hfits {p : Nat} {ty : Ty} {v : Operand} (h : s.Fits p ty v) :
      (s.withdrawn place).Fits p ty v :=
    h.modified hmodule fun f _ hstage => by cases hstage
  have hvalues : (s.withdrawn place).values = s.values := by
    unfold Session.withdrawn
    split <;> rfl
  have hslots : (s.withdrawn place).slots = s.slots := by
    unfold Session.withdrawn
    split <;> rfl
  constructor
  case code =>
    intro f hf hlive
    obtain ⟨j, hj⟩ := List.mem_iff_getElem?.1 hf
    rw [hmodule] at hj ⊢
    rcases functions_modify_cases hj with ⟨_, f', _, rfl⟩ | ⟨hne, hj⟩
    · cases hlive
    · have hcalls := Module.not_callsAt_of_isCalledBy hcalled hj (Ne.symm hne) hlive
      apply (hs.code f (List.mem_of_getElem? hj) hlive).of_callees
      intro i hi name k hname hk
      rw [Module.arities, Module.find?_modify_of_index? (fun _ => rfl)]
      · exact hk
      · intro hindex
        rw [Module.callsAt_iff.2 ⟨name, Function.calls_of_mem hi hname, hindex⟩] at hcalls
        cases hcalls
  case constants =>
    rw [hvalues]
    exact hs.constants
  case locals =>
    rw [hvalues]
    exact fun e he p howner => hfits (hs.locals e he p howner)
  case slots =>
    rw [hslots]
    exact fun e he => hfits (hs.slots e he)
  case fresh =>
    unfold Session.withdrawn
    split
    · intro c f hc
      cases hc
    · exact hs.fresh_of_modify rfl rfl rfl (by simp)

/-- **After every history in which no function is abandoned that another calls, a session is
typed.** -/
theorem after (id : Nat) (o : SessionOptions) (t : Target) {history : List Request}
    (h : (Session.start id o t).sparesAlong Function.isLive history) :
    ((Session.start id o t).after history).Typed := by
  have hboth := sparesAlong_induction (P := fun s => s.Formed ∧ s.Typed) ?_ ?_
    ⟨.start id o t, .start id o t⟩ h
  · exact hboth.2
  · rintro s t ⟨hformed, hs⟩ hstep
    exact ⟨hformed.growStep hstep, hs.growStep hformed hstep⟩
  · rintro s e ⟨hformed, hs⟩ _ hcalled
    exact ⟨hformed.withdrawn e.index, hs.withdrawn hcalled⟩

/-- In a typed session, the live functions that take no more instructions are well formed, and the
others are not. -/
theorem wellFormed_iff (hs : s.Typed) (hformed : s.Formed) {f : Function}
    (hf : f ∈ s.module.functions) (hlive : f.isLive) :
    f.WellFormed s.module.arities ↔ f.stage ≠ .building :=
  (hformed.functions f hf).wellFormed_iff hlive (hs.code f hf hlive)

end Typed

/-! ### Verifying and closing -/

theorem verification_of_error {m : Module} {f : Function} {err : Error}
    (h : m.verifyFunction f = .error err) : ∃ message, err = .verification f.name message := by
  unfold Module.verifyFunction at h
  cases hcheck : Verify.check m f with
  | ok _ => simp [hcheck, Except.mapError] at h
  | error fault =>
    rw [hcheck] at h
    cases h
    exact ⟨_, rfl⟩

/-- **A live function passes verification exactly when it takes no more instructions.** -/
theorem verifyFunction_live (hformed : s.Formed) (hs : s.Typed) (hu : s.poisonedBy = none)
    {handle : FunctionId} {e : FunctionEntry} (he : s.entry handle = .ok e)
    (hlive : (s.functionAt e.index).isLive) :
    ((s.functionAt e.index).stage = .building → ∃ message t, verifyFunction handle s =
        .error (.verification (s.functionAt e.index).name message) t) ∧
      ((s.functionAt e.index).stage ≠ .building → ∃ t, verifyFunction handle s = .ok () t) := by
  have hf := List.mem_of_getElem? (hformed.functionAt (resolve_eq_ok he))
  have hiff := hs.wellFormed_iff hformed hf hlive
  have hverdict := verifyFunction_verdict s handle
  have heq {e' : FunctionEntry} (he' : s.entry handle = .ok e') : e' = e :=
    Except.ok.inj (he'.symm.trans he)
  generalize verifyFunction handle s = r at hverdict ⊢
  cases hverdict with
  | refused err hreason =>
    simp [Function.isLive, hreason hu e he] at hlive
  | settled e' he' hdone =>
    obtain rfl := heq he'
    refine ⟨fun hstage => ?_, fun _ => ⟨s, rfl⟩⟩
    obtain ⟨b, hext, _, _⟩ := (hformed.functions _ hf).of_building hstage
    simp [hstage, hext] at hdone
  | faulty e' err _ he' hincorrect =>
    obtain rfl := heq he'
    obtain ⟨message, rfl⟩ := verification_of_error hincorrect
    refine ⟨fun _ => ⟨message, _, rfl⟩, fun hstage => ?_⟩
    cases hincorrect.symm.trans (Module.verifyFunction_eq_ok.2 (hiff.2 hstage))
  | passed e' _ he' _ _ hcorrect =>
    obtain rfl := heq he'
    have hended := hiff.1 (Module.verifyFunction_eq_ok.1 hcorrect)
    exact ⟨fun hstage => absurd hstage hended, fun _ => ⟨_, rfl⟩⟩

/-- The verification that comes before the passes looks at the live functions only. -/
theorem verify_dropAbandoned_eq_ok {m : Module} :
    m.dropAbandoned.verify = .ok () ↔
      (m.live.map Function.name).Nodup ∧ ∀ f ∈ m.live, f.WellFormed m.arities := by
  have hlive : m.dropAbandoned.live = m.live := by simp [Module.dropAbandoned, Module.live]
  have harities : m.dropAbandoned.arities = m.arities := by
    funext name
    rw [Module.arities, Module.arities, Module.find?_eq_head?_live, Module.find?_eq_head?_live,
      hlive]
  rw [Module.verify_eq_ok, hlive, harities]

theorem function_eq_ok {handle : FunctionId} {f : Function} :
    s.function handle = .ok f ↔ ∃ e, s.entry handle = .ok e ∧ f = s.functionAt e.index := by
  rw [function]
  cases s.entry handle <;> simp [Except.map, eq_comm]

/-- **Sessions build correct code.** After every history in which no function is abandoned that
another live one calls, live functions have different names; while the session is not poisoned, a
live function fails verification if it still takes instructions, and passes otherwise; and the
session can be closed exactly when it is not poisoned and no live function takes instructions. -/
theorem built_correct (id : Nat) (o : SessionOptions) (target : Target) (history : List Request)
    (hspares : (start id o target).sparesAlong Function.isLive history) :
    let s := (start id o target).after history
    (s.module.live.map Function.name).Nodup ∧
    (∀ f ∈ s.module.live, ∃ handle, s.function handle = .ok f) ∧
    (s.poisonedBy = none → ∀ handle f, s.function handle = .ok f → f.isLive →
      (f.stage = .building → ∃ message,
        (s.request (.verifyFunction handle)).1 = .error (.verification f.name message)) ∧
      (f.stage ≠ .building → (s.request (.verifyFunction handle)).1 = .ok .done)) ∧
    ((∃ m, s.close = .ok m) ↔
      s.poisonedBy = none ∧ ∀ f ∈ s.module.live, f.stage ≠ .building) := by
  intro s
  have hformed : s.Formed := .after id o target history
  have htyped : s.Typed := .after id o target hspares
  refine ⟨hformed.distinct, ?_, ?_, ?_⟩
  · intro f hf
    obtain ⟨j, hj⟩ := List.mem_iff_getElem?.1 (List.mem_filter.1 hf).1
    obtain ⟨handle, e, he, rfl⟩ := hformed.exists_entry (List.getElem?_eq_some_iff.1 hj).1
    refine ⟨handle, function_eq_ok.2 ⟨e, he, ?_⟩⟩
    rw [functionAt, hj, Option.getD_some]
  · intro hu handle f hf hlive
    obtain ⟨e, he, rfl⟩ := function_eq_ok.1 hf
    obtain ⟨hbuilding, hended⟩ := verifyFunction_live hformed htyped hu he hlive
    constructor
    · intro hstage
      obtain ⟨message, t, h⟩ := hbuilding hstage
      rw [request_of_error rfl h]
      exact ⟨message, rfl⟩
    · intro hstage
      obtain ⟨t, h⟩ := hended hstage
      rw [request_of_ok rfl h]
  · simp only [close_eq_ok, exists_and_left, exists_eq, and_true, verify_dropAbandoned_eq_ok]
    have hlive (f : Function) (hf : f ∈ s.module.live) :
        f.WellFormed s.module.arities ↔ f.stage ≠ .building :=
      htyped.wellFormed_iff hformed (List.mem_filter.1 hf).1 (List.mem_filter.1 hf).2
    constructor
    · rintro ⟨hu, _, hwf⟩
      exact ⟨hu, fun f hf => (hlive f hf).1 (hwf f hf)⟩
    · rintro ⟨hu, hstage⟩
      exact ⟨hu, hformed.distinct, fun f hf => (hlive f hf).2 (hstage f hf)⟩

/-- Requests for a function that is left half-built, for one that calls it and itself, and for a
third that is abandoned. -/
def nestedHistory : List Request :=
  [.beginFunction "g" ["x"], .beginFunction "f" ["x"], .call ⟨0, 0⟩ [⟨0, 1⟩],
    .call ⟨0, 1⟩ [⟨0, 2⟩], .endFunction ⟨0, 1⟩ ⟨0, 3⟩, .beginFunction "h" [],
    .abandonFunction ⟨0, 2⟩]

theorem built_correct_nested :
    let target : Target := { triple := Target.host, arch := "x86_64", os := "linux" }
    let s := (start 0 {} target).after nestedHistory
    let s' := (start 0 {} target).after [.beginFunction "f" ["x"], .endFunction ⟨0, 0⟩ ⟨0, 0⟩]
    (s.module.live.map Function.name).Nodup ∧
      (∃ message, (s.request (.verifyFunction ⟨0, 0⟩)).1 = .error (.verification "g" message)) ∧
      (s.request (.verifyFunction ⟨0, 1⟩)).1 = .ok .done ∧ (¬ ∃ m, s.close = .ok m) ∧
      ∃ m, s'.close = .ok m := by
  intro target s s'
  obtain ⟨hnames, _, hverify, hclose⟩ := built_correct 0 {} target nestedHistory (by decide +kernel)
  obtain ⟨_, _, _, hclose'⟩ := built_correct 0 {} target
    [.beginFunction "f" ["x"], .endFunction ⟨0, 0⟩ ⟨0, 0⟩] (by decide +kernel)
  have hu : s.poisonedBy = none := by decide +kernel
  have hg : (s.functionAt 0).name = "g" := by decide +kernel
  refine ⟨hnames, ?_, ?_, fun h => ?_, hclose'.2 (by decide +kernel)⟩
  · rw [← hg]
    exact (hverify hu ⟨0, 0⟩ (s.functionAt 0) (by decide +kernel) (by decide +kernel)).1
      (by decide +kernel)
  · exact (hverify hu ⟨0, 1⟩ (s.functionAt 1) (by decide +kernel) (by decide +kernel)).2
      (by decide +kernel)
  · exact (hclose.1 h).2 (s.functionAt 0) (by decide +kernel) (by decide +kernel)

end Session

end StraightLine
