import StraightLine.Proofs.ItemRules
import StraightLine.Proofs.SessionRefusals

/-!
# What handles stand for

What a handle stands for is never changed or taken away (`Session.Retains`, which every step
keeps): entries stay in their arenas, and functions keep their places, names and arities, also when
they are abandoned. The places of functions that a session notes down are places of its module
(`Session.Bounded`), and a name leads to the handle of the live function that has it.
-/

namespace StraightLine

/-- Every function of `m` is at the same place in `m'`, with its name and its arity. -/
def Module.Keeps (m m' : Module) : Prop :=
  ∀ (place : Nat) (f : Function), m.functions[place]? = some f →
    ∃ g, m'.functions[place]? = some g ∧ g.name = f.name ∧ g.arity = f.arity

namespace Module.Keeps

variable {m m' m'' : Module}

theorem refl (m : Module) : m.Keeps m := fun _ f hf => ⟨f, hf, rfl, rfl⟩

theorem trans (h : m.Keeps m') (h' : m'.Keeps m'') : m.Keeps m'' := by
  intro place f hf
  obtain ⟨g, hg, hname, harity⟩ := h place f hf
  obtain ⟨k, hk, hname', harity'⟩ := h' place g hg
  exact ⟨k, hk, hname'.trans hname, harity'.trans harity⟩

theorem modify (m : Module) (place : Nat) {g : Function → Function}
    (hname : ∀ f, (g f).name = f.name) (harity : ∀ f, (g f).arity = f.arity) :
    m.Keeps (m.modify place g) := by
  intro j f hf
  by_cases hplace : place = j
  · subst hplace
    exact ⟨g f, Session.functions_modify hf g, hname f, harity f⟩
  · exact ⟨f, (Session.functions_modify_of_ne hplace g).trans hf, rfl, rfl⟩

theorem add (m : Module) (f : Function) : m.Keeps (m.add f) := by
  intro place g hg
  obtain ⟨hlt, _⟩ := List.getElem?_eq_some_iff.1 hg
  exact ⟨g, (List.getElem?_append_left hlt).trans hg, rfl, rfl⟩

theorem length_le (h : m.Keeps m') : m.functions.length ≤ m'.functions.length := by
  by_contra hlt
  obtain ⟨g, hg, _⟩ := h m'.functions.length _ (List.getElem?_eq_getElem (by omega))
  simp at hg

end Module.Keeps

namespace Handle

variable {k : HandleKind} {α : Type} {session : Nat} {arena : Array α} {h : Handle k} {a b : α}

theorem resolve_eq_ok_iff :
    h.resolve session arena = .ok a ↔ h.session = session ∧ arena[h.index]? = some a := by
  unfold resolve
  by_cases hs : h.session = session
  · cases arena[h.index]? <;> simp [hs]
  · simp [hs]

theorem resolve_append (ha : h.resolve session arena = .ok a) (new : Array α) :
    h.resolve session (arena ++ new) = .ok a := by
  obtain ⟨hs, hget⟩ := resolve_eq_ok_iff.1 ha
  obtain ⟨hlt, _⟩ := Array.getElem?_eq_some_iff.1 hget
  exact resolve_eq_ok_iff.2 ⟨hs, (Array.getElem?_append_left hlt).trans hget⟩

/-- What a handle stands for in an arena that has grown was there before, or is new. -/
theorem resolve_push_cases (ha : h.resolve session (arena.push b) = .ok a) :
    h.resolve session arena = .ok a ∨ h = ⟨session, arena.size⟩ ∧ a = b := by
  obtain ⟨hs, hget⟩ := resolve_eq_ok_iff.1 ha
  rw [Array.getElem?_push] at hget
  split at hget
  next hindex =>
    rw [← hs, ← hindex]
    exact .inr ⟨rfl, (Option.some.inj hget).symm⟩
  next => exact .inl (resolve_eq_ok_iff.2 ⟨hs, hget⟩)

/-- The next handle stands for nothing yet. -/
theorem ne_of_resolve (ha : h.resolve session arena = .ok a) : h ≠ ⟨session, arena.size⟩ := by
  rintro rfl
  have hget := (resolve_eq_ok_iff.1 ha).2
  simp at hget

theorem resolve_of_ne (hs : h.session ≠ session) :
    h.resolve session arena = .error (h.foreign session) :=
  if_neg hs

end Handle

namespace Session

variable {s t u : Session}

/-! ### What handles stand for -/

/-- All that the handles of `s` stand for is the same in `t`. -/
structure Retains (s t : Session) : Prop where
  id : t.id = s.id
  values : ∀ v e, s.value v = .ok e → t.value v = .ok e
  slots : ∀ h e, s.slot h = .ok e → t.slot h = .ok e
  entries : ∀ f e, s.entry f = .ok e → t.entry f = .ok e
  module : s.module.Keeps t.module

namespace Retains

theorem refl (s : Session) : s.Retains s :=
  ⟨rfl, fun _ _ h => h, fun _ _ h => h, fun _ _ h => h, .refl _⟩

theorem trans (h : s.Retains t) (h' : t.Retains u) : s.Retains u where
  id := h'.id.trans h.id
  values v e he := h'.values v e (h.values v e he)
  slots p e he := h'.slots p e (h.slots p e he)
  entries f e he := h'.entries f e (h.entries f e he)
  module := h.module.trans h'.module

theorem changed (s : Session) (place : Nat) {g : Function → Function}
    (hname : ∀ f, (g f).name = f.name) (harity : ∀ f, (g f).arity = f.arity) :
    s.Retains (s.changed place g) :=
  ⟨rfl, fun _ _ h => h, fun _ _ h => h, fun _ _ h => h, .modify _ place hname harity⟩

theorem withdrawn (s : Session) (place : Nat) : s.Retains (s.withdrawn place) := by
  have h := changed s place (g := fun f => { f with stage := .abandoned, blocks := [] })
    (fun _ => rfl) fun _ => rfl
  unfold Session.withdrawn
  split
  · exact ⟨h.id, h.values, h.slots, h.entries, h.module⟩
  · exact h

theorem codeStep (h : s.CodeStep t) : s.Retains t := by
  have hextends := h.extends
  refine ⟨hextends.id, hextends.values, hextends.slots, fun f e he => ?_, ?_⟩
  · rwa [entry, hextends.id, hextends.functions]
  · cases h with
    | define c f b i _ _ _ => exact .modify _ c.function (fun _ => rfl) fun _ => rfl
    | append c f b i _ _ _ => exact .modify _ c.function (fun _ => rfl) fun _ => rfl
    | _ => exact .refl _

/-- **Every step leaves what handles stand for as it is.** -/
theorem step (h : s.Step t) : s.Retains t := by
  cases h with
  | withdrawn e _ _ _ => exact withdrawn s e.index
  | grow t h =>
    cases h with
    | code t h => exact codeStep h
    | name _ => exact ⟨rfl, fun _ _ h => h, fun _ _ h => h, fun _ _ h => h, .refl _⟩
    | opened name params _ _ _ _ =>
      exact ⟨rfl, fun _ _ h => Handle.resolve_append h _, fun _ _ h => h,
        fun _ _ h => Handle.resolve_push h _, .add _ _⟩
    | declared name arity _ _ _ =>
      exact ⟨rfl, fun _ _ h => h, fun _ _ h => h, fun _ _ h => Handle.resolve_push h _, .add _ _⟩
    | ended c f b v _ _ =>
      rw [returned_eq]
      exact changed s c.function (fun _ => rfl) fun _ => rfl
    | verified e f _ _ _ _ _ _ => exact changed s e.index (fun _ => rfl) fun _ => rfl
    | poisoned e f err _ _ _ _ =>
      exact ⟨rfl, fun _ _ h => h, fun _ _ h => h, fun _ _ h => h, .refl _⟩

theorem steps (h : s.Steps t) : s.Retains t := by
  induction h with
  | refl => exact .refl s
  | tail _ hstep ih => exact ih.trans (step hstep)

theorem request (s : Session) (r : Request) : s.Retains (s.request r).2 :=
  steps (request_snd s r ▸ makes_perform r s)

end Retains

/-! ### Places and parameters -/

/-- What values and slots belong to is in the module, and parameters are values of the session. -/
structure Rooted (s : Session) : Prop where
  values : ∀ e ∈ s.values, ∀ place, e.owner = some place → place < s.module.functions.length
  slots : ∀ e ∈ s.slots, e.owner < s.module.functions.length
  params : ∀ e ∈ s.functions, ∀ v ∈ e.params, ∃ x, s.value v = .ok x

/-- All places of functions that a session notes down are places of its module. -/
structure Bounded (s : Session) : Prop extends Rooted s where
  functions : ∀ e ∈ s.functions, e.index < s.module.functions.length
  cursor : ∀ c, s.draft.cursor = some c → c.function < s.module.functions.length

theorem Site.lt {c : Cursor} {f : Function} {b : Block} (h : s.Site c f b) :
    c.function < s.module.functions.length :=
  (List.getElem?_eq_some_iff.1 h.function).1

namespace Rooted

theorem start (id : Nat) (o : SessionOptions) (target : Target) :
    (Session.start id o target).Rooted :=
  ⟨by simp [Session.start], by simp [Session.start], by simp [Session.start]⟩

/-- A session stays rooted when what is new in it is. -/
theorem grown (hs : s.Rooted) (h : s.Retains t)
    (hvalues : ∀ e ∈ t.values, e ∈ s.values ∨
      ∀ place, e.owner = some place → place < t.module.functions.length)
    (hslots : ∀ e ∈ t.slots, e ∈ s.slots ∨ e.owner < t.module.functions.length)
    (hparams : ∀ e ∈ t.functions, e ∈ s.functions ∨ ∀ v ∈ e.params, ∃ x, t.value v = .ok x) :
    t.Rooted where
  values e he place hplace := by
    rcases hvalues e he with hold | hnew
    · exact Nat.lt_of_lt_of_le (hs.values e hold place hplace) h.module.length_le
    · exact hnew place hplace
  slots e he := by
    rcases hslots e he with hold | hnew
    · exact Nat.lt_of_lt_of_le (hs.slots e hold) h.module.length_le
    · exact hnew
  params e he v hv := by
    rcases hparams e he with hold | hnew
    · obtain ⟨x, hx⟩ := hs.params e hold v hv
      exact ⟨x, h.values v x hx⟩
    · exact hnew v hv

theorem withValue (hs : s.Rooted) {e : ValueEntry} (h : s.Retains (s.withValue e))
    (howner : ∀ place, e.owner = some place → place < s.module.functions.length) :
    (s.withValue e).Rooted := by
  refine hs.grown h (fun e' he' => ?_) (fun _ => .inl) fun _ => .inl
  rcases Array.mem_push.1 he' with he' | rfl
  · exact .inl he'
  · exact .inr howner

theorem codeStep (hs : s.Rooted) (h : s.CodeStep t) : t.Rooted := by
  have hretains := Retains.codeStep h
  cases h with
  | float x => exact hs.withValue hretains fun _ h => by cases h
  | string bytes => exact hs.withValue hretains fun _ h => by cases h
  | value c f b i r ty hsite _ _ _ =>
    exact hs.withValue hretains fun _ h => Option.some.inj h ▸ hsite.lt
  | slot c f b v r name hsite _ =>
    refine hs.grown hretains (fun _ => .inl) (fun e he => ?_) fun _ => .inl
    rcases Array.mem_push.1 he with he | rfl
    · exact .inl he
    · exact .inr hsite.lt
  | _ => exact hs.grown hretains (fun _ => .inl) (fun _ => .inl) fun _ => .inl

/-- The parameters of a function that is begun are values that belong to it. -/
theorem opened (hs : s.Rooted) {name : String} {params : List String}
    (h : s.Retains (s.opened name params)) : (s.opened name params).Rooted := by
  refine hs.grown h (fun e he => ?_) (fun _ => .inl) fun e he => ?_
  · rcases Array.mem_append.1 he with he | he
    · exact .inl he
    · obtain ⟨i, _, rfl⟩ := List.mem_map.1 (List.mem_toArray.1 he)
      refine .inr fun place hplace => ?_
      obtain rfl := Option.some.inj hplace
      simp [Session.opened, Session.module, Module.add]
  · rcases Array.mem_push.1 he with he | rfl
    · exact .inl he
    · refine .inr fun v hv => ?_
      obtain ⟨i, hi, rfl⟩ := List.mem_map.1 hv
      exact ⟨_, opened_value (List.mem_range.1 hi)⟩

/-- **Every step keeps a session rooted.** -/
theorem step (hs : s.Rooted) (h : s.Step t) : t.Rooted := by
  have hretains := Retains.step h
  cases h with
  | withdrawn e _ _ _ =>
    unfold Session.withdrawn at hretains ⊢
    split
    next hcursor =>
      rw [if_pos hcursor] at hretains
      exact hs.grown hretains (fun _ => .inl) (fun _ => .inl) fun _ => .inl
    next hcursor =>
      rw [if_neg hcursor] at hretains
      exact hs.grown hretains (fun _ => .inl) (fun _ => .inl) fun _ => .inl
  | grow t h =>
    cases h with
    | code t h => exact hs.codeStep h
    | opened name params _ _ _ _ => exact hs.opened hretains
    | declared name arity _ _ _ =>
      refine hs.grown hretains (fun _ => .inl) (fun _ => .inl) fun e he => ?_
      rcases Array.mem_push.1 he with he | rfl
      · exact .inl he
      · exact .inr fun v hv => by cases hv
    | _ => exact hs.grown hretains (fun _ => .inl) (fun _ => .inl) fun _ => .inl

end Rooted

/-- What holds of an open session at any time. -/
structure InOrder (s : Session) : Prop where
  steady : s.Steady
  rooted : s.Rooted

namespace InOrder

theorem start (id : Nat) (o : SessionOptions) (target : Target) :
    (Session.start id o target).InOrder :=
  ⟨⟨.start id o target, .start id o target, .start id o target⟩, .start id o target⟩

theorem step (hs : s.InOrder) (h : s.Step t) : t.InOrder :=
  ⟨⟨hs.steady.formed.step h, hs.steady.named.step h, hs.steady.aimed.step h⟩, hs.rooted.step h⟩

theorem steps (hs : s.InOrder) (h : s.Steps t) : t.InOrder := by
  induction h with
  | refl => exact hs
  | tail _ hstep ih => exact ih.step hstep

theorem request (hs : s.InOrder) (r : Request) : (s.request r).2.InOrder :=
  hs.steps (request_snd s r ▸ makes_perform r s)

theorem bounded (hs : s.InOrder) : s.Bounded where
  toRooted := hs.rooted
  functions _ he := hs.steady.formed.lt_of_mem he
  cursor c hc := by
    obtain ⟨f, b, hf, _⟩ := hs.steady.aimed c hc
    exact (List.getElem?_eq_some_iff.1 hf).1

end InOrder

/-! ### Functions by name -/

namespace Formed

/-- Handles number the functions of the module. -/
theorem eq_of_entry (hs : s.Formed) {f : FunctionId} {e : FunctionEntry} (he : s.entry f = .ok e) :
    f = ⟨s.id, e.index⟩ := by
  obtain ⟨hid, hget⟩ := Handle.resolve_eq_ok_iff.1 he
  have hindex : (s.functions.toList.map FunctionEntry.index)[f.index]? = some e.index := by
    rw [List.getElem?_map, Array.getElem?_toList, hget]
    rfl
  rw [hs.entries] at hindex
  obtain ⟨_, hindex⟩ := List.getElem?_eq_some_iff.1 hindex
  rw [List.getElem_range] at hindex
  rw [← hid, ← hindex]

/-- There is at most one live function with a name. -/
theorem place_unique (hs : s.Formed) {name : String} {i j : Nat} {f g : Function}
    (hf : s.module.functions[i]? = some f) (hg : s.module.functions[j]? = some g)
    (hfn : Module.isNamed name f) (hgn : Module.isNamed name g) : i = j := by
  have hdistinct := List.pairwise_iff_getElem.1 (Module.nodup_names_iff.1 hs.distinct)
  obtain ⟨hi, rfl⟩ := List.getElem?_eq_some_iff.1 hf
  obtain ⟨hj, rfl⟩ := List.getElem?_eq_some_iff.1 hg
  obtain ⟨hlive, hname⟩ := Module.isNamed_iff.1 hfn
  obtain ⟨hlive', hname'⟩ := Module.isNamed_iff.1 hgn
  rcases Nat.lt_trichotomy i j with hlt | heq | hlt
  · exact absurd (hname.trans hname'.symm) (hdistinct i j hi hj hlt hlive hlive')
  · exact heq
  · exact absurd (hname'.trans hname.symm) (hdistinct j i hj hi hlt hlive' hlive)

/-- The handle that is found by name is the one of the live function with the name. -/
theorem functionNamed?_iff (hs : s.Formed) {name : String} {f : FunctionId} :
    s.functionNamed? name = some f ↔ ∃ g, s.function f = .ok g ∧ g.isLive ∧ g.name = name := by
  constructor
  · intro h
    obtain ⟨e, g, he, hg, hnamed⟩ := functionNamed?_eq_some h
    refine ⟨g, ?_, Module.isNamed_iff.1 hnamed⟩
    simp [function, he, Except.map, Session.functionAt, hg]
  · rintro ⟨g, hg, hnamed⟩
    have hnamed : Module.isNamed name g := Module.isNamed_iff.2 hnamed
    cases he : s.entry f with
    | error err => simp [function, he, Except.map] at hg
    | ok e =>
      obtain rfl : s.functionAt e.index = g := by simpa [function, he, Except.map] using hg
      have hplace := hs.functionAt (resolve_eq_ok he)
      obtain ⟨k, hk⟩ := Option.isSome_iff_exists.1
        (List.find?_isSome.2 ⟨_, List.mem_of_getElem? hplace, hnamed⟩)
      obtain ⟨f', hf'⟩ := hs.functionNamed?_of_find? hk
      obtain ⟨e', g', he', hg', hnamed'⟩ := functionNamed?_eq_some hf'
      rw [hf', hs.eq_of_entry he', hs.eq_of_entry he, hs.place_unique hg' hplace hnamed' hnamed]

theorem exists_functionNamed?_iff (hs : s.Formed) {name : String} :
    (∃ f, s.functionNamed? name = some f) ↔
      ∃ g ∈ s.module.functions, g.isLive ∧ g.name = name := by
  constructor
  · rintro ⟨f, hf⟩
    obtain ⟨_, g, _, hg, hnamed⟩ := functionNamed?_eq_some hf
    exact ⟨g, List.mem_of_getElem? hg, Module.isNamed_iff.1 hnamed⟩
  · rintro ⟨g, hg, hnamed⟩
    obtain ⟨k, hk⟩ := Option.isSome_iff_exists.1
      (List.find?_isSome.2 ⟨g, hg, Module.isNamed_iff.2 hnamed⟩)
    exact hs.functionNamed?_of_find? hk

end Formed

end Session

end StraightLine
