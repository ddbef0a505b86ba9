import StraightLine.Proofs.Labels

/-!
# Refused items leave no trace

Items are lowered one by one, and again without those that were refused (`Lower.Listing.kept`). As
long as no item calls a function around a top-level expression, the second time all are accepted,
and the live functions are the same, before and after the session is closed
(`Lower.Listing.kept_without_trace`). Only labels differ, and the numbers in the names of functions
around top-level expressions: these are taken by refused items as well, but keep their order.

The two sessions are compared item by item (`Lower.Listing.Mirrors`).
-/

namespace StraightLine

/-! ### Calls -/

mutual

/-- The functions that an expression calls. -/
def Expr.callees : Expr → List String
  | .number _ | .string _ | .var _ => []
  | .binary _ l r => Expr.callees l ++ Expr.callees r
  | .call name args => name :: Expr.allCallees args

/-- The functions that some expressions call. -/
def Expr.allCallees : List Expr → List String
  | [] => []
  | e :: es => Expr.callees e ++ Expr.allCallees es

end

/-- The functions that a statement calls. -/
def Stmt.callees : Stmt → List String
  | .bind _ e | .assign _ e | .eval e | .ret e => e.callees

/-- The functions that an item calls. -/
def Item.callees : Item → List String
  | .function _ b => b.flatMap Stmt.callees
  | .external _ => []
  | .topLevel e => e.callees

theorem Expr.mem_allCallees {g : String} {e : Expr} {es : List Expr} (he : e ∈ es)
    (hg : g ∈ e.callees) : g ∈ Expr.allCallees es := by
  induction es with
  | nil => cases he
  | cons e' es ih =>
    rw [Expr.allCallees, List.mem_append]
    rcases List.mem_cons.1 he with rfl | he
    · exact .inl hg
    · exact .inr (ih he)

section Rules

variable {calls calls' : String → Nat → Prop} {visible params : List String}

/-- An expression stays numeric where it can call what it calls. -/
theorem Expr.Numeric.mono {e : Expr} (h : e.Numeric calls visible)
    (hcalls : ∀ g ∈ e.callees, ∀ k, calls g k → calls' g k) : e.Numeric calls' visible := by
  induction h with
  | number c => exact .number c
  | var name hvisible => exact .var name hvisible
  | binary op l r _ _ ihl ihr =>
    refine .binary op l r (ihl fun g hg => ?_) (ihr fun g hg => ?_)
    · exact hcalls g (List.mem_append_left _ hg)
    · exact hcalls g (List.mem_append_right _ hg)
  | call name args hcallee _ ih =>
    refine .call name args (hcalls name List.mem_cons_self _ hcallee) fun e he => ?_
    refine ih e he fun g hg => ?_
    exact hcalls g (List.mem_cons_of_mem _ (Expr.mem_allCallees he hg))

theorem Stmt.InOrder.mono {st : Stmt} {earlier : List Stmt} (h : st.InOrder calls params earlier)
    (hcalls : ∀ g ∈ st.callees, ∀ k, calls g k → calls' g k) :
    st.InOrder calls' params earlier := by
  cases st with
  | bind name e => exact Expr.Numeric.mono h hcalls
  | assign name e => exact ⟨h.1, h.2.mono hcalls⟩
  | eval e =>
    rcases h with h | h
    · exact .inl (h.mono hcalls)
    · exact .inr h
  | ret e => exact Expr.Numeric.mono h hcalls

theorem Stmt.AllInOrder.mono {b earlier : List Stmt} (h : AllInOrder calls params earlier b)
    (hcalls : ∀ g ∈ b.flatMap Stmt.callees, ∀ k, calls g k → calls' g k) :
    AllInOrder calls' params earlier b := by
  induction b generalizing earlier with
  | nil => trivial
  | cons st b ih =>
    refine ⟨h.1.mono fun g hg => ?_, ih h.2 fun g hg => ?_⟩
    · exact hcalls g (List.mem_append_left _ hg)
    · exact hcalls g (List.mem_append_right _ hg)

end Rules

/-! ### Sessions with the same functions -/

namespace Session

variable {s t : Session}

/-- The session has a live function with a name, which takes a number of arguments. -/
def Provides (s : Session) (name : String) (arity : Nat) : Prop :=
  ∃ f ∈ s.module.live, f.name = name ∧ f.arity = arity

/-- The name of a function around a top-level expression. -/
def wrapperName (n : Nat) : String := NameFamily.member { stem := wrapperStem } n

theorem reserved_wrapperName (n : Nat) : Reserved (wrapperName n) :=
  NameFamily.reserves_iff.1 (NameFamily.reserves_member _ n)

theorem Named.member_eq (hs : s.Named) (n : Nat) : s.wrappers.member n = wrapperName n := by
  rw [wrapperName, NameFamily.member, NameFamily.member, hs.stem]

/-- A live function with a name that users may not choose has one that was handed out. -/
theorem Named.exists_number (hs : s.Named) {f : Function} (hf : f ∈ s.module.live)
    (hname : Reserved f.name) : ∃ n < s.wrappers.next, f.name = wrapperName n := by
  have hmem : f.name ∈ s.module.functions.map Function.name :=
    List.mem_map_of_mem (List.mem_filter.1 hf).1
  obtain ⟨n, hn, htaken⟩ := hs.taken _ hmem ((hs.reserves_iff_reserved _).2 hname)
  exact ⟨n, hn, htaken.trans (hs.member_eq n)⟩

theorem Named.number_lt (hs : s.Named) {f : Function} (hf : f ∈ s.module.live) {n : Nat}
    (hname : f.name = wrapperName n) : n < s.wrappers.next := by
  obtain ⟨m, hm, htaken⟩ := hs.exists_number hf (hname ▸ reserved_wrapperName n)
  rwa [NameFamily.member_inj (hname.symm.trans htaken)]

/-- The functions of two sessions under the names that users may choose look alike from outside. -/
def Alike (s t : Session) : Prop :=
  ∀ name, ¬ Reserved name → ∀ arity, s.Provides name arity ↔ t.Provides name arity

theorem Alike.symm (h : s.Alike t) : t.Alike s :=
  fun name hname arity => (h name hname arity).symm

theorem Admissible.of_alike {name : String} (h : s.Admissible name) (hst : s.Alike t) :
    t.Admissible name where
  nonempty := h.nonempty
  free := h.free
  new f hf hname := by
    obtain ⟨g, hg, hgname, _⟩ := (hst name h.free f.arity).2 ⟨f, hf, hname, rfl⟩
    exact h.new g hg hgname

end Session

open Session (Reserved)

/-- What is lawful in a session is so in one with functions that look alike. -/
theorem Item.Lawful.of_alike {s t : Session} (hs : s.Named) (hst : s.Alike t) {i : Item}
    (hfree : ∀ g ∈ i.callees, ¬ Reserved g) (h : i.Lawful s) : i.Lawful t := by
  cases i with
  | function proto b =>
    obtain ⟨hname, hparams, hreturns, horder⟩ := h
    refine ⟨hname.of_alike hst, hparams, hreturns, horder.mono fun g hg k hcalls => ?_⟩
    rcases hcalls with hown | hcalls
    · exact .inl hown
    · exact .inr ((hst g (hfree g hg) k).1 hcalls)
  | external proto => exact Session.Admissible.of_alike h hst
  | topLevel value =>
    refine Expr.Numeric.mono h fun g hg k hcalls => ?_
    rcases hcalls with ⟨rfl, _⟩ | hcalls
    · refine absurd ?_ (hfree _ hg)
      rw [NameFamily.take, hs.member_eq]
      exact Session.reserved_wrapperName _
    · exact .inr ((hst g (hfree g hg) k).1 hcalls)

theorem Item.lawful_iff_of_alike {s t : Session} (hs : s.Named) (ht : t.Named) (hst : s.Alike t)
    {i : Item} (hfree : ∀ g ∈ i.callees, ¬ Reserved g) : i.Lawful s ↔ i.Lawful t :=
  ⟨.of_alike hs hst hfree, .of_alike ht hst.symm hfree⟩

/-! ### Functions that differ in name and labels -/

/-- Two names that are the same, or those of functions around top-level expressions of which one has
the number that `ρ` gives for that of the other. -/
def Renumbered (ρ : Nat → Nat) (name name' : String) : Prop :=
  (¬ Reserved name ∧ name' = name) ∨
    ∃ n, name = Session.wrapperName n ∧ name' = Session.wrapperName (ρ n)

/-- Two functions that differ only in the labels of their blocks, and in the numbers of their names
as `ρ` says. -/
structure Function.Resembles (ρ : Nat → Nat) (f g : Function) : Prop where
  code : f.unlabelled = g.unlabelled
  named : Renumbered ρ f.name g.name

variable {ρ : Nat → Nat}

theorem Renumbered.eq_of_left {name name' : String} (h : Renumbered ρ name name')
    (hname : ¬ Reserved name) : name' = name := by
  rcases h with ⟨_, h⟩ | ⟨n, rfl, _⟩
  · exact h
  · exact absurd (Session.reserved_wrapperName n) hname

theorem Renumbered.eq_of_right {name name' : String} (h : Renumbered ρ name name')
    (hname : ¬ Reserved name') : name' = name := by
  rcases h with ⟨_, h⟩ | ⟨n, _, rfl⟩
  · exact h
  · exact absurd (Session.reserved_wrapperName _) hname

theorem Function.Resembles.arity_eq {f g : Function} (h : f.Resembles ρ g) :
    f.arity = g.arity := by
  change f.unlabelled.arity = g.unlabelled.arity
  rw [h.code]

theorem Session.alike_of_resembles {s t : Session}
    (h : List.Forall₂ (Function.Resembles ρ) s.module.live t.module.live) : s.Alike t := by
  intro name hname arity
  constructor
  · rintro ⟨f, hf, rfl, rfl⟩
    obtain ⟨g, hg, hfg⟩ := exists_of_mem_left h hf
    exact ⟨g, hg, hfg.named.eq_of_left hname, hfg.arity_eq.symm⟩
  · rintro ⟨g, hg, rfl, rfl⟩
    obtain ⟨f, hf, hfg⟩ := exists_of_mem_left (R := flip (Function.Resembles ρ)) h.flip hg
    exact ⟨f, hf, (Renumbered.eq_of_right hfg.named hname).symm, Function.Resembles.arity_eq hfg⟩

/-- Passes keep what two functions have in common. -/
theorem Function.Resembles.runEach {A A' : Arities} {f g : Function} (h : f.Resembles ρ g)
    (hf : f.WellFormed A) (hg : g.WellFormed A') (ps : List Pass) :
    (Pass.runEach ps f).Resembles ρ (Pass.runEach ps g) where
  code := by rw [← Pass.runEach_unlabelled, h.code, Pass.runEach_unlabelled]
  named := by
    rw [(Pass.runEach_refines hf ps).name, (Pass.runEach_refines hg ps).name]
    exact h.named

/-! ### What steps leave alone -/

namespace Session

/-- Sessions that hand out the same names. -/
def SameNames (s t : Session) : Prop := t.wrappers = s.wrappers

theorem CodeStep.sameNames {s t : Session} (h : s.CodeStep t) : s.SameNames t := by
  cases h <;> rfl

theorem Builds.takes_sameNames {α : Type} {x : SessionM α} (h : Builds x) : Takes SameNames x :=
  fun s => Relation.ReflTransGen.mono (fun _ _ h => h.sameNames) _ _ (h s)

theorem takes_build {α : Type} (b : Building α) : Takes SameNames (build b) := by
  intro s
  unfold result build
  cases b s.draft <;> exact .single rfl

theorem takes_endFunction (f : FunctionId) (v : ValueId) : Takes SameNames (endFunction f v) :=
  takes_bind (takes_query _) fun _ => takes_bind (takes_query _) fun _ =>
    takes_bind (takes_query _) fun _ => takes_bind (takes_query _) fun _ =>
      takes_bind (takes_build _) fun _ => takes_build _

theorem takes_verifyFunction (f : FunctionId) : Takes SameNames (verifyFunction f) := by
  intro s
  have hverdict := verifyFunction_verdict s f
  unfold result
  generalize verifyFunction f s = r at hverdict
  cases hverdict <;> exact .single rfl

theorem takes_abandonFunction (f : FunctionId) : Takes SameNames (abandonFunction f) := by
  intro s
  rcases abandonFunction_cases s f with ⟨err, h⟩ | ⟨e, _, _, _, h⟩
  · rw [result_error h]
  · rw [result_ok h]
    refine .single ?_
    unfold SameNames withdrawn
    split <;> rfl

theorem wrappers_of_takes {α : Type} {x : SessionM α} (hx : Takes SameNames x) (s : Session) :
    (result x s).wrappers = s.wrappers := by
  have hs := hx s
  generalize result x s = t at hs
  induction hs with
  | refl => rfl
  | tail _ hstep ih => exact Eq.trans hstep ih

end Session

namespace Lower

open Session (Takes SameNames takes_bind takes_pure takes_query takes_map result)

theorem takes_stmts (f : FunctionId) (scope : Scope) (b : List Stmt) :
    Takes SameNames (stmts f scope b) := by
  induction b generalizing scope with
  | nil => exact takes_pure _
  | cons st b ih =>
    refine takes_bind ?_ ih
    cases st with
    | ret e =>
      exact takes_bind (builds_expr scope e).takes_sameNames fun v =>
        takes_bind (Session.takes_endFunction f v) fun _ => takes_pure _
    | _ => exact (builds_stmt f scope rfl).takes_sameNames

/-- A function that is begun takes no name, whether it is accepted or not. -/
theorem takes_begun (f : FunctionId) (params : List String) (b : List Stmt) (x : Lowered) :
    Takes SameNames (settle f (body f params b) >>= fun _ => pure x) := by
  refine takes_bind (takes_settle ?_ (Session.takes_abandonFunction f)) fun _ => takes_pure _
  exact takes_bind (builds_paramScope f 0 params).takes_sameNames fun scope =>
    takes_bind (takes_stmts f scope b) fun _ => Session.takes_verifyFunction f

/-- How many names of functions around top-level expressions an item takes. -/
def nameCount : Item → Nat
  | .topLevel _ => 1
  | _ => 0

/-- **Items take names whether or not they are accepted.** -/
theorem item_next {s : Session} (hs : s.Ready) (i : Item) :
    (result (item i) s).wrappers.next = s.wrappers.next + nameCount i := by
  have same {x : SessionM Lowered} (hx : Takes SameNames x) :
      (result x s).wrappers.next = s.wrappers.next := by
    rw [Session.wrappers_of_takes hx]
  cases i with
  | function proto b =>
    rw [item_function]
    refine same (takes_bind (takes_query _) fun _ => takes_bind (fun s => ?_) fun f =>
      takes_begun f _ _ _)
    rcases Session.beginFunction_cases s proto.name proto.params with ⟨err, h⟩ | ⟨_, _, _, _, h⟩
    · rw [Session.result_error h]
    · rw [Session.result_ok h]
      exact .single rfl
  | external proto =>
    refine same (takes_map _ fun s => ?_)
    rcases Session.declareFunction_cases s proto.name proto.params.length with
      ⟨err, h⟩ | ⟨_, _, _, h⟩
    · rw [Session.result_error h]
    · rw [Session.result_ok h]
      exact .single rfl
  | topLevel value =>
    obtain ⟨_, hbegin⟩ := hs.named.beginTopLevel hs.usable
    have hitem : item (.topLevel value) s = _ := Session.andThen_of_ok hbegin
    rw [result, hitem]
    simp only [finishTopLevel_eq_body]
    have htakes := takes_begun ⟨s.id, s.functions.size⟩ [] [.ret value]
      (.topLevel ⟨s.id, s.functions.size⟩)
    have hwrappers := Session.wrappers_of_takes htakes (s.nameTaken.opened s.wrappers.take.1 [])
    exact congrArg NameFamily.next hwrappers

/-! ### Lowering without the refused items -/

theorem unlabelled_compiled (d : Interpreter.Definition) (name name' : String)
    (label label' : Nat) :
    (d.compiled name label).unlabelled = (d.compiled name' label').unlabelled := by
  cases d <;> rfl

namespace Listing

/-- The items among some that are accepted when they are lowered one by one. -/
def kept (l : Listing) : List Item → List Item
  | [] => []
  | i :: rest =>
    match item i l.session with
    | .ok _ _ => i :: (l.add i).kept rest
    | .error _ _ => (l.add i).kept rest

variable {l l' : Listing} {i : Item}

theorem kept_cons_of_ok {x : Lowered} {t : Session} (h : item i l.session = .ok x t)
    (rest : List Item) : l.kept (i :: rest) = i :: (l.add i).kept rest := by
  rw [kept, h]

theorem kept_cons_of_error {err : Error} {t : Session} (h : item i l.session = .error err t)
    (rest : List Item) : l.kept (i :: rest) = (l.add i).kept rest := by
  rw [kept, h]

/-- The renumbering `ρ`, but with `k` numbers left out from `bound` on. -/
def skipping (ρ : Nat → Nat) (bound k n : Nat) : Nat := if n < bound then ρ n else ρ n + k

theorem skipping_of_lt {bound k n : Nat} (h : n < bound) : skipping ρ bound k n = ρ n := if_pos h

theorem skipping_of_le {bound k n : Nat} (h : bound ≤ n) : skipping ρ bound k n = ρ n + k :=
  if_neg (by omega)

theorem strictMono_skipping {bound k : Nat} (h : StrictMono ρ) :
    StrictMono (skipping ρ bound k) := by
  intro m n hmn
  have hlt := h hmn
  unfold skipping
  split <;> split <;> omega

/-- The session of `l` has the same live functions as that of `l'`, up to labels and numbers. The
names that the two will hand out have the numbers that `ρ` gives for each other. -/
structure Mirrors (ρ : Nat → Nat) (l l' : Listing) : Prop where
  ready : l.session.Ready
  ready' : l'.session.Ready
  mono : StrictMono ρ
  next : ∀ n, ρ (l.session.wrappers.next + n) = l'.session.wrappers.next + n
  live : List.Forall₂ (Function.Resembles ρ) l.session.module.live l'.session.module.live

/-- At the beginning there is no difference. -/
theorem mirrors_self (hl : l.session.Ready) : Mirrors id l l where
  ready := hl
  ready' := hl
  mono := strictMono_id
  next _ := rfl
  live := by
    refine List.forall₂_same.2 fun f hf => ⟨rfl, ?_⟩
    by_cases hname : Reserved f.name
    · obtain ⟨n, _, hn⟩ := hl.named.exists_number hf hname
      exact .inr ⟨n, hn, hn⟩
    · exact .inl ⟨hname, rfl⟩

namespace Mirrors

theorem lawful_iff (h : Mirrors ρ l l') (hfree : ∀ g ∈ i.callees, ¬ Reserved g) :
    i.Lawful l.session ↔ i.Lawful l'.session :=
  Item.lawful_iff_of_alike h.ready.named h.ready'.named (Session.alike_of_resembles h.live) hfree

/-- An item that both sessions accept gets names that correspond. -/
theorem itemName (h : Mirrors ρ l l') (hi : i.Lawful l.session) :
    Renumbered ρ (Lower.itemName l.session i) (Lower.itemName l'.session i) := by
  cases i with
  | function proto b => exact .inl ⟨hi.1.free, rfl⟩
  | external proto => exact .inl ⟨hi.free, rfl⟩
  | topLevel value =>
    refine .inr ⟨l.session.wrappers.next, h.ready.named.member_eq _, ?_⟩
    rw [← Nat.add_zero l.session.wrappers.next, h.next]
    exact h.ready'.named.member_eq _

/-- **An item that one session accepts, the other accepts too**, and they still have the same
functions. -/
theorem accepted (h : Mirrors ρ l l') (hfree : ∀ g ∈ i.callees, ¬ Reserved g) {x' : Lowered}
    {t' : Session} (hi' : item i l'.session = .ok x' t') :
    (∃ x t, item i l.session = .ok x t) ∧ Mirrors ρ (l.add i) (l'.add i) := by
  have hdecides' := item_decides h.ready' i
  rw [hi'] at hdecides'
  have hlawful : i.Lawful l.session := (h.lawful_iff hfree).2 hdecides'.1
  have hdecides := item_decides h.ready i
  cases hi : item i l.session with
  | error err t =>
    rw [hi] at hdecides
    exact absurd hlawful hdecides.1.1
  | ok x t =>
    refine ⟨⟨x, t, rfl⟩, ready_add h.ready i, ready_add h.ready' i, h.mono, fun n => ?_, ?_⟩
    · rw [add_session, add_session, item_next h.ready, item_next h.ready', Nat.add_assoc, h.next,
        Nat.add_assoc]
    · obtain ⟨label, hlive⟩ := live_of_ok hi
      obtain ⟨label', hlive'⟩ := live_of_ok hi'
      rw [add_session, add_session, Session.result_ok hi, Session.result_ok hi', hlive, hlive']
      refine List.rel_append h.live (.cons ⟨unlabelled_compiled .., ?_⟩ .nil)
      rw [Interpreter.Definition.compiled_name, Interpreter.Definition.compiled_name]
      exact h.itemName hlawful

/-- **An item that is refused changes nothing but the numbers of the names to come.** -/
theorem refused (h : Mirrors ρ l l') {err : Error} {t' : Session}
    (hi' : item i l'.session = .error err t') : ∃ ρ', Mirrors ρ' l (l'.add i) := by
  refine ⟨skipping ρ l.session.wrappers.next (nameCount i), h.ready, ready_add h.ready' i,
    strictMono_skipping h.mono, fun n => ?_, ?_⟩
  · rw [skipping_of_le (Nat.le_add_right _ _), h.next, add_session, item_next h.ready']
    omega
  · rw [add_session, Session.result_error hi', live_of_error h.ready' hi']
    have hbound : ∀ f ∈ l.session.module.live, ∀ n, f.name = Session.wrapperName n →
        n < l.session.wrappers.next := fun f hf n => h.ready.named.number_lt hf
    refine ((List.forall₂_and_left _ _).2 ⟨hbound, h.live⟩).imp fun f g hfg => ?_
    obtain ⟨hnumber, hcode, hnamed⟩ := hfg
    refine ⟨hcode, ?_⟩
    rcases hnamed with hsame | ⟨n, hname, hname'⟩
    · exact .inl hsame
    · exact .inr ⟨n, hname, by rw [hname', skipping_of_lt (hnumber n hname)]⟩

/-- **All kept items are accepted again**, and lead to the same functions as all items. -/
theorem addAll (h : Mirrors ρ l l') {items : List Item}
    (hfree : ∀ i ∈ items, ∀ g ∈ i.callees, ¬ Reserved g) :
    l.kept (l'.kept items) = l'.kept items ∧
      ∃ ρ', Mirrors ρ' (l.addAll (l'.kept items)) (l'.addAll items) := by
  induction items generalizing ρ l l' with
  | nil => exact ⟨rfl, ρ, h⟩
  | cons i items ih =>
    rw [List.forall_mem_cons] at hfree
    cases hi' : item i l'.session with
    | ok x' t' =>
      obtain ⟨⟨x, t, hi⟩, hnext⟩ := h.accepted hfree.1 hi'
      obtain ⟨hkept, hrest⟩ := ih hnext hfree.2
      rw [kept_cons_of_ok hi', kept_cons_of_ok hi, hkept]
      exact ⟨rfl, hrest⟩
    | error err t' =>
      obtain ⟨ρ', hnext⟩ := h.refused hi'
      rw [kept_cons_of_error hi']
      exact ih hnext hfree.2

/-- The same passes leave the same functions. -/
theorem runEach (h : Mirrors ρ l l') (hl : l.Compiled) (hl' : l'.Compiled) (ps : List Pass) :
    List.Forall₂ (Function.Resembles ρ) (l.session.module.live.map (Pass.runEach ps))
      (l'.session.module.live.map (Pass.runEach ps)) := by
  rw [List.forall₂_map_left_iff, List.forall₂_map_right_iff]
  obtain ⟨hlength, hpairs⟩ := List.forall₂_iff_zip.1 h.live
  refine List.forall₂_iff_zip.2 ⟨hlength, fun hfg => ?_⟩
  obtain ⟨hf, hg⟩ := List.of_mem_zip hfg
  exact (hpairs hfg).runEach (hl.wellFormed h.ready _ hf) (hl'.wellFormed h.ready' _ hg) ps

end Mirrors

/-- **Refused items leave no trace.** When items are lowered of which none calls a function around a
top-level expression, and then only those of them that were accepted, these are all accepted again.
The live functions of the two sessions are the same in the same order, and so are those of the
modules that they close with: a renumbering that keeps the order gives the names of those around
top-level expressions, and apart from it only labels differ. -/
theorem kept_without_trace (id : Nat) (o : SessionOptions) (target : Target) (hosts : Bool)
    (items : List Item) (hfree : ∀ i ∈ items, ∀ g ∈ i.callees, ¬ Reserved g) :
    let l := start id o target hosts
    let rest := l.kept items
    l.kept rest = rest ∧ ∃ ρ : Nat → Nat, StrictMono ρ ∧
      List.Forall₂ (Function.Resembles ρ) (l.addAll rest).session.module.live
        (l.addAll items).session.module.live ∧
      ∃ m m', (l.addAll rest).session.close = .ok m ∧ (l.addAll items).session.close = .ok m' ∧
        List.Forall₂ (Function.Resembles ρ) m.functions m'.functions := by
  intro l rest
  have hready : l.session.Ready := ready_start id o target hosts
  have hl : l.Compiled := compiled_start id o target hosts
  obtain ⟨hkept, ρ, hmirrors⟩ := (mirrors_self hready).addAll hfree
  refine ⟨hkept, ρ, hmirrors.mono, hmirrors.live, ?_⟩
  have hrest := compiled_addAll hl hready rest
  have hitems := compiled_addAll hl hready items
  obtain ⟨m, hm, _, hfunctions⟩ := hrest.closes hmirrors.ready
  obtain ⟨m', hm', _, hfunctions'⟩ := hitems.closes hmirrors.ready'
  refine ⟨m, m', hm, hm', ?_⟩
  rw [hfunctions, hfunctions', (steps_addAll l rest).pipeline, (steps_addAll l items).pipeline]
  exact hmirrors.runEach hrest hitems _

/-- A call that is refused as its function is not there yet takes a name, and so the same call gets
another number when it is accepted later. -/
theorem kept_without_trace_sample :
    let l := start 0 {} { triple := Target.host, arch := "x86_64", os := "linux" } false
    let items : List Item := [.topLevel (.call "f" [.number 2.0]),
      .function ⟨"f", ["x"]⟩ [.ret (.binary .add (.var "x") (.number 1.5))],
      .function ⟨"g", []⟩ [.ret (.var "x")], .topLevel (.call "f" [.number 2.0])]
    let rest := l.kept items
    (l.addAll rest).session.module.live.map Function.name = ["f", "__anon_expr"] ∧
      (l.addAll items).session.module.live.map Function.name = ["f", "__anon_expr.1"] ∧
      l.kept rest = rest ∧ ∃ ρ : Nat → Nat, StrictMono ρ ∧
        List.Forall₂ (Function.Resembles ρ) (l.addAll rest).session.module.live
          (l.addAll items).session.module.live ∧
        ∃ m m', (l.addAll rest).session.close = .ok m ∧ (l.addAll items).session.close = .ok m' ∧
          List.Forall₂ (Function.Resembles ρ) m.functions m'.functions := by
  intro l items rest
  have hf : ¬ Reserved "f" := by decide +kernel
  have hfree : ∀ i ∈ items, ∀ g ∈ i.callees, ¬ Reserved g := by
    simpa [items, Item.callees, Stmt.callees, Expr.callees, Expr.allCallees] using hf
  exact ⟨by decide +kernel, by decide +kernel, kept_without_trace 0 {} _ false items hfree⟩

end Listing

end Lower

end StraightLine
