import StraightLine.Proofs.SessionShape

/-!
# Names of functions around top-level expressions

The family of names that a session keeps for its own functions has no name twice, and nobody else
can take one of its names. So the next name is always new (`Session.Named`, which every step keeps).
-/

namespace StraightLine

namespace NameFamily

variable {f : NameFamily}

/-- The reserved names are the stem, and what goes on behind it with a point. -/
theorem reserves_iff {name : String} :
    f.reserves name ↔ name = f.stem ∨ ∃ rest, name = f.stem ++ "." ++ rest := by
  have hsplit : (∃ rest, name = f.stem ++ "." ++ rest) ↔
      (f.stem ++ ".").toList <+: name.toList := by
    constructor
    · rintro ⟨rest, rfl⟩
      exact ⟨rest.toList, by simp⟩
    · rintro ⟨rest, hrest⟩
      refine ⟨String.ofList rest, ?_⟩
      rw [← String.toList_inj, ← hrest]
      simp
  rw [reserves, hsplit, Bool.or_eq_true, decide_eq_true_iff, List.isPrefixOf_iff_prefix]

theorem reserves_member (f : NameFamily) (n : Nat) : f.reserves (f.member n) := by
  rw [reserves_iff, member]
  split
  · exact .inl rfl
  · exact .inr ⟨toString n, rfl⟩

/-- No name comes twice. -/
theorem member_inj {m n : Nat} (h : f.member m = f.member n) : m = n := by
  have hstem (k : Nat) : f.stem ≠ f.stem ++ "." ++ toString k := by
    intro heq
    have hlength := congrArg String.length heq
    simp only [String.length_append] at hlength
    have hpoint : ".".length = 1 := rfl
    omega
  unfold member at h
  split at h
  next hm =>
    split at h
    next hn => omega
    next => exact absurd h (hstem n)
  next =>
    split at h
    next => exact absurd h.symm (hstem m)
    next => exact Nat.repr_inj.1 ((String.append_right_inj _).1 h)

/-- The names that are handed out are members of the family, in order. -/
theorem mem_takeMany {k : Nat} {name : String} :
    name ∈ f.takeMany k ↔ ∃ n, f.next ≤ n ∧ n < f.next + k ∧ name = f.member n := by
  induction k generalizing f with
  | zero =>
    simp only [takeMany, List.not_mem_nil, false_iff, not_exists, not_and]
    omega
  | succ k ih =>
    rw [takeMany, List.mem_cons, ih]
    constructor
    · rintro (rfl | ⟨n, hle, hlt, rfl⟩)
      · exact ⟨f.next, by omega, by omega, rfl⟩
      · simp only [take] at hle hlt
        exact ⟨n, by omega, by omega, rfl⟩
    · rintro ⟨n, hle, hlt, rfl⟩
      by_cases hn : n = f.next
      · exact .inl (hn ▸ rfl)
      · exact .inr ⟨n, show f.next + 1 ≤ n by omega, show n < f.next + 1 + k by omega, rfl⟩

end NameFamily

namespace Session

/-- Of the reserved names, only those that were handed out are names of functions. -/
structure Named (s : Session) : Prop where
  stem : s.wrappers.stem = wrapperStem
  taken : ∀ name ∈ s.module.functions.map Function.name, s.wrappers.reserves name →
    ∃ n < s.wrappers.next, name = s.wrappers.member n

theorem names_modify (m : Module) (place : Nat) {g : Function → Function}
    (hg : ∀ f, (g f).name = f.name) :
    (m.modify place g).functions.map Function.name = m.functions.map Function.name := by
  simp only [Module.modify]
  generalize m.functions = fs
  induction fs generalizing place with
  | nil => cases place <;> rfl
  | cons f fs ih =>
    cases place with
    | zero => simp [hg]
    | succ place => simpa using ih place

namespace Named

variable {s t : Session}

theorem start (id : Nat) (o : SessionOptions) (t : Target) : (Session.start id o t).Named :=
  ⟨rfl, by simp [Session.start, Session.module]⟩

/-- Names matter, and nothing else. -/
theorem of_names (hs : s.Named) (hwrappers : t.wrappers = s.wrappers)
    (hnames : t.module.functions.map Function.name = s.module.functions.map Function.name) :
    t.Named where
  stem := hwrappers ▸ hs.stem
  taken := by
    rw [hwrappers, hnames]
    exact hs.taken

/-- A function is added under a name that users may choose, or that was handed out. -/
theorem added (hs : s.Named) {f : Function} (hwrappers : t.wrappers = s.wrappers)
    (hmodule : t.module = s.module.add f)
    (hname : s.wrappers.reserves f.name → ∃ n < s.wrappers.next, f.name = s.wrappers.member n) :
    t.Named where
  stem := hwrappers ▸ hs.stem
  taken := by
    intro name hmem
    rw [hmodule, Module.add, List.map_append, List.mem_append] at hmem
    rw [hwrappers]
    rcases hmem with hmem | hmem
    · exact hs.taken name hmem
    · obtain rfl : name = f.name := by simpa using hmem
      exact hname

/-- **Every step keeps the names of functions apart.** -/
theorem step (hs : s.Named) (h : s.Step t) : t.Named := by
  have modified {place : Nat} {g : Function → Function} (hg : ∀ f, (g f).name = f.name)
      (hwrappers : t.wrappers = s.wrappers) (hmodule : t.module = s.module.modify place g) :
      t.Named := by
    refine hs.of_names hwrappers ?_
    rw [hmodule, names_modify _ _ hg]
  cases h with
  | withdrawn e _ _ _ =>
    refine modified (g := fun f => { f with stage := .abandoned, blocks := [] }) (fun _ => rfl) ?_
      (withdrawn_fields s e.index).2.2.2
    unfold Session.withdrawn
    split <;> rfl
  | grow t h =>
    cases h with
    | code t h =>
      cases h with
      | define c f b i _ _ _ => exact modified (g := (·.appendTo c.block i)) (fun _ => rfl) rfl rfl
      | append c f b i _ _ _ => exact modified (g := (·.appendTo c.block i)) (fun _ => rfl) rfl rfl
      | _ => exact hs.of_names rfl rfl
    | name _ =>
      refine ⟨hs.stem, fun name hmem hreserved => ?_⟩
      obtain ⟨n, hn, hname⟩ := hs.taken name hmem hreserved
      exact ⟨n, Nat.lt_succ_of_lt hn, hname⟩
    | opened name params _ _ _ horigin =>
      refine hs.added (f := { Function.declare name params with
        stage := .building
        blocks := [{ id := s.draft.labels.next, name := entryName }] }) rfl rfl ?_
      intro hreserved
      rcases horigin with hfree | ⟨_, n, hnext, hname⟩
      · cases hfree.symm.trans hreserved
      · exact ⟨n, by omega, hname⟩
    | declared name arity _ _ huser =>
      refine hs.added (f := Function.external name arity) rfl rfl fun hreserved => ?_
      cases huser.symm.trans hreserved
    | ended c f b v _ _ =>
      rw [returned_eq]
      exact hs.of_names rfl (names_modify _ _ fun _ => rfl)
    | verified e f _ _ _ _ _ _ =>
      exact modified (g := fun f => { f with stage := .verified }) (fun _ => rfl) rfl rfl
    | poisoned e f err _ _ _ _ => exact hs.of_names rfl rfl

theorem growSteps (hs : s.Named) (h : s.GrowSteps t) : t.Named := by
  induction h with
  | refl => exact hs
  | tail _ hstep ih => exact ih.step (.grow _ hstep)

/-- The next name of the family is new. -/
theorem ne_next (hs : s.Named) {f : Function} (hf : f ∈ s.module.functions) :
    f.name ≠ s.wrappers.take.1 := by
  intro hname
  obtain ⟨n, hn, htaken⟩ := hs.taken f.name (List.mem_map_of_mem hf)
    (hname ▸ s.wrappers.reserves_member _)
  have := NameFamily.member_inj (htaken.symm.trans hname)
  omega

theorem find?_next (hs : s.Named) : s.module.find? s.wrappers.take.1 = none := by
  rw [Module.find?, List.find?_eq_none]
  intro f hf hnamed
  exact hs.ne_next hf (Module.isNamed_iff.1 hnamed).2

/-- **A function around a top-level expression can always be begun.** -/
theorem beginTopLevel (hs : s.Named) (hu : s.poisonedBy = none) :
    s.nameTaken.checkNewName s.wrappers.take.1 = .ok () ∧
      Session.beginTopLevel s =
        .ok ⟨s.id, s.functions.size⟩ (s.nameTaken.opened s.wrappers.take.1 []) := by
  have hnew : s.nameTaken.checkNewName s.wrappers.take.1 = .ok () := by
    refine checkNewName_eq_ok.2 ⟨?_, hs.find?_next⟩
    simp only [NameFamily.take, NameFamily.member, hs.stem]
    split
    · rfl
    · simp [wrapperStem]
  refine ⟨hnew, ?_⟩
  rw [Session.beginTopLevel, bind_query_of_ok (ensureUsable_eq_ok.2 hu)]
  exact openFunction_of_ok hnew rfl

end Named

end Session

end StraightLine
