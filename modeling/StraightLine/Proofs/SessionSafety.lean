import StraightLine.Proofs.Progress
import StraightLine.Proofs.SessionLifecycle

/-!
# What sessions build is safe

No handle stands for something undefined, and a slot gets a handle only after its first store. So
every function of a session, at any time, reads nothing undefined and no slot that is empty
(`Session.Tidy`, which every step keeps).
-/

namespace StraightLine

namespace Function

/-- A function without code does nothing wrong. -/
theorem safe_of_blocks_eq_nil {f : Function} (h : f.blocks = []) : f.Safe :=
  ⟨by simp [h], by simp [instrs, h, Code.Filled]⟩

end Function

namespace Session

/-- A session whose functions are safe, and whose handles stand for what is defined and for slots
that are filled. -/
structure Tidy (s : Session) : Prop where
  safe : ∀ f ∈ s.module.functions, f.Safe
  defined : ∀ e ∈ s.values, e.operand ≠ .undef
  filled : ∀ e ∈ s.slots, ∃ f p, s.module.functions[e.owner]? = some f ∧ e.ptr = .temp p ∧
    (f.stage = .building → p ∈ Code.fills [] f.instrs)

namespace Tidy

variable {s : Session}

theorem start (id : Nat) (o : SessionOptions) (t : Target) : (Session.start id o t).Tidy :=
  ⟨by simp [Session.start, Session.module], by simp [Session.start], by simp [Session.start]⟩

/-- A tidy session stays so when a function is changed into one that is safe and, if it still takes
instructions, keeps its slots filled. -/
theorem changed (hs : s.Tidy) {place : Nat} {g : Function → Function}
    (h : ∀ f, s.module.functions[place]? = some f → (g f).Safe ∧
      ((g f).stage = .building → f.stage = .building ∧
        Code.fills [] f.instrs ⊆ Code.fills [] (g f).instrs)) : (s.changed place g).Tidy where
  safe f hf := by
    obtain ⟨j, hj⟩ := List.mem_iff_getElem?.1 hf
    have hmodify : (s.module.functions.modify place g)[j]? = some f := hj
    rw [List.getElem?_modify] at hmodify
    obtain ⟨f', hf', hmap⟩ := Option.map_eq_some_iff.1 hmodify
    split at hmap
    next hplace =>
      subst hplace hmap
      exact (h f' hf').1
    next =>
      subst hmap
      exact hs.safe f' (List.mem_of_getElem? hf')
  defined := hs.defined
  filled e he := by
    obtain ⟨f, p, hf, hp, hfill⟩ := hs.filled e he
    by_cases hplace : place = e.owner
    · subst hplace
      refine ⟨g f, p, functions_modify hf g, hp, fun hstage => ?_⟩
      obtain ⟨hbuilding, hsub⟩ := (h f hf).2 hstage
      exact hsub (hfill hbuilding)
    · refine ⟨f, p, ?_, hp, hfill⟩
      change (s.module.functions.modify place g)[e.owner]? = some f
      rw [List.getElem?_modify, hf]
      simp [hplace]

theorem withValue (hs : s.Tidy) {e : ValueEntry} (he : e.operand ≠ .undef) :
    (s.withValue e).Tidy where
  safe := hs.safe
  defined e' he' := (Array.mem_push.1 he').elim (hs.defined e') fun h => h ▸ he
  filled := hs.filled

/-- No operand behind a handle is undefined. -/
theorem offers (hs : s.Tidy) {place : Nat} {t : Ty} {v : Operand} (h : s.Offers place t v) :
    v ≠ .undef := by
  obtain ⟨e, he, rfl, _⟩ := h
  exact hs.defined e he

/-- A slot that can be used under the cursor is filled there. -/
theorem offersSlot (hs : s.Tidy) {c : Cursor} {f : Function} {b : Block} (hsite : s.Site c f b)
    {v : Operand} (h : s.OffersSlot c.function v) :
    ∃ p, v = .temp p ∧ p ∈ Code.fills [] f.instrs := by
  obtain ⟨e, he, rfl, howner⟩ := h
  obtain ⟨f', p, hf', hp, hfill⟩ := hs.filled e he
  rw [howner, hsite.function] at hf'
  cases hf'
  exact ⟨p, hp, hfill hsite.building⟩

/-- What requests put under the cursor is safe there. -/
theorem admits (hs : s.Tidy) {c : Cursor} {f : Function} {b : Block} (hsite : s.Site c f b)
    {i : Instr} (h : s.Admits c.function b i) : i.Safe (Code.fills [] f.instrs) := by
  have defined {t : Ty} {v : Operand} (hv : s.Offers c.function t v) : ¬ .undef = v :=
    Ne.symm (hs.offers hv)
  cases h with
  | alloca r name => exact ⟨by simp [Instr.operands], by simp⟩
  | fill v r name _ hv => exact ⟨by simp [Instr.operands, defined hv], by simp⟩
  | store v p hv hp =>
    obtain ⟨q, rfl, _⟩ := hs.offersSlot hsite hp
    exact ⟨by simp [Instr.operands, defined hv], by simp⟩
  | load r p hp =>
    obtain ⟨q, rfl, hq⟩ := hs.offersSlot hsite hp
    refine ⟨by simp [Instr.operands], fun r' p' t' heq => ?_⟩
    cases heq
    exact hq
  | arith r op v w hv hw => exact ⟨by simp [Instr.operands, defined hv, defined hw], by simp⟩
  | compare r p v w hv hw => exact ⟨by simp [Instr.operands, defined hv, defined hw], by simp⟩
  | widen r v hv => exact ⟨by simp [Instr.operands, defined hv], by simp⟩
  | call r e g vs _ _ _ _ hvs =>
    refine ⟨fun hmem => ?_, by simp⟩
    rcases List.mem_cons.1 hmem with h | h
    · cases h
    · exact hs.offers (hvs _ h) rfl

theorem subset_fills (S : List Nat) (i : Instr) : S ⊆ i.fills S := by
  unfold Instr.fills
  split
  · exact List.subset_cons_self _ _
  · exact List.Subset.refl _

/-- An instruction that is safe behind what is there can be put there. -/
theorem appended (hs : s.Tidy) {c : Cursor} {f : Function} {b : Block} (hsite : s.Site c f b)
    {i : Instr} (hfilled : i.Safe (Code.fills [] f.instrs)) : (s.appended c i).Tidy := by
  have hsafe := hs.safe f (List.mem_of_getElem? hsite.function)
  obtain ⟨hf, hnew, hlength⟩ := instrs_appendTo hsafe.single hsite.block i
  change (s.changed c.function (·.appendTo c.block i)).Tidy
  refine hs.changed fun f' hf' => ?_
  obtain rfl : f' = f := Option.some.inj (hf'.symm.trans hsite.function)
  rw [hf] at hfilled
  refine ⟨⟨hlength ▸ hsafe.single, ?_⟩, fun hstage => ⟨hstage, ?_⟩⟩
  · rw [hnew]
    exact Code.filled_concat.2 ⟨hf ▸ hsafe.filled, hfilled⟩
  · rw [hnew, hf, Code.fills_concat]
    exact subset_fills _ i

/-- The slot of the last store is filled. -/
theorem withSlot (hs : s.Tidy) {c : Cursor} {f : Function} {b : Block} (hsite : s.Site c f b)
    {v : Operand} {p : Nat} (hlast : b.instrs.getLast? = some (.store v (.temp p)))
    (name : String) : (s.withSlot ⟨.temp p, c.function, name⟩).Tidy where
  safe := hs.safe
  defined := hs.defined
  filled e he := by
    rcases Array.mem_push.1 he with he | rfl
    · exact hs.filled e he
    · refine ⟨f, p, hsite.function, rfl, fun _ => ?_⟩
      have hsafe := hs.safe f (List.mem_of_getElem? hsite.function)
      obtain ⟨is, his⟩ := List.getLast?_eq_some_iff.1 hlast
      rw [(instrs_appendTo hsafe.single hsite.block (.ret v)).1, his, Code.fills_concat]
      exact List.mem_cons_self

/-- Steps that build code keep a session tidy. -/
theorem codeStep (hs : s.Tidy) {t : Session} (h : s.CodeStep t) : t.Tidy := by
  cases h with
  | skip _ => exact ⟨hs.safe, hs.defined, hs.filled⟩
  | define c f b i hsite hadmits _ =>
    have h := hs.appended hsite (hs.admits hsite hadmits)
    exact ⟨h.safe, h.defined, h.filled⟩
  | append c f b i hsite hadmits _ => exact hs.appended hsite (hs.admits hsite hadmits)
  | float x => exact hs.withValue (by simp)
  | string bytes => exact hs.withValue (by simp)
  | value c f b i r t _ _ _ _ => exact hs.withValue (by simp)
  | slot c f b v r name hsite hlast => exact hs.withSlot hsite hlast name

/-- A function is added at the end. -/
theorem added (hs : s.Tidy) {t : Session} {f : Function} (hf : f.Safe)
    (hmodule : t.module = s.module.add f) (hslots : t.slots = s.slots)
    (hvalues : ∀ e ∈ t.values, e ∈ s.values ∨ e.operand ≠ .undef) : t.Tidy where
  safe g hg := by
    rw [hmodule] at hg
    rcases List.mem_append.1 hg with hg | hg
    · exact hs.safe g hg
    · rwa [List.mem_singleton.1 hg]
  defined e he := (hvalues e he).elim (hs.defined e) fun h => h
  filled e he := by
    rw [hslots] at he
    obtain ⟨g, p, hg, hp, hfill⟩ := hs.filled e he
    refine ⟨g, p, ?_, hp, hfill⟩
    rw [hmodule]
    exact (List.getElem?_append_left (List.getElem?_eq_some_iff.1 hg).1).trans hg

/-- Steps that take nothing away keep a session tidy. -/
theorem growStep (hs : s.Tidy) {t : Session} (h : s.GrowStep t) : t.Tidy := by
  -- A function that takes no more instructions owes nothing to its slots.
  have closed {s : Session} (hs : s.Tidy) (place : Nat) {stage : Stage}
      (hstage : stage ≠ .building) :
      (s.changed place fun f => { f with stage := stage }).Tidy := by
    refine hs.changed fun f hf => ⟨?_, fun h => absurd h hstage⟩
    have hsafe := hs.safe f (List.mem_of_getElem? hf)
    exact ⟨hsafe.single, hsafe.filled⟩
  cases h with
  | code t h => exact hs.codeStep h
  | name _ => exact ⟨hs.safe, hs.defined, hs.filled⟩
  | opened name params _ _ _ _ =>
    refine hs.added (f := { Function.declare name params with
      stage := .building
      blocks := [{ id := s.draft.labels.next, name := entryName }] }) ?_ rfl rfl ?_
    · exact ⟨by simp, by simp [Function.instrs, Code.Filled]⟩
    · intro e he
      rcases Array.mem_append.1 he with he | he
      · exact .inl he
      · obtain ⟨i, _, rfl⟩ := List.mem_map.1 (List.mem_toArray.1 he)
        exact .inr (by simp)
  | declared name arity _ _ _ =>
    exact hs.added (Function.safe_of_blocks_eq_nil rfl) rfl rfl fun e he => .inl he
  | ended c f b v hsite hv =>
    have hsafe : (Instr.ret v).Safe (Code.fills [] f.instrs) :=
      ⟨by simp [Instr.operands, Ne.symm (hs.offers hv)], by simp⟩
    exact closed (hs.appended hsite hsafe) _ (by simp)
  | verified e f _ _ _ _ _ _ => exact closed hs _ (by simp)
  | poisoned e f err _ _ _ _ => exact ⟨hs.safe, hs.defined, hs.filled⟩

/-- **Every step keeps a session tidy.** -/
theorem step (hs : s.Tidy) {t : Session} (h : s.Step t) : t.Tidy := by
  cases h with
  | grow t h => exact hs.growStep h
  | withdrawn e _ _ _ =>
    have h : (s.changed e.index fun f => { f with stage := .abandoned, blocks := [] }).Tidy :=
      hs.changed fun f _ => ⟨Function.safe_of_blocks_eq_nil rfl, by simp⟩
    unfold Session.withdrawn
    split
    · exact ⟨h.safe, h.defined, h.filled⟩
    · exact h

theorem steps (hs : s.Tidy) {t : Session} (h : s.Steps t) : t.Tidy := by
  induction h with
  | refl => exact hs
  | tail _ hstep ih => exact ih.step hstep

/-- **After every history a session is tidy.** -/
theorem after (id : Nat) (o : SessionOptions) (t : Target) (history : List Request) :
    ((Session.start id o t).after history).Tidy :=
  after_induction (fun _ _ hs h => hs.step h) (start id o t) history

end Tidy

end Session

end StraightLine
