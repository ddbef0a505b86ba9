import StraightLine.Proofs.SessionShape

/-!
# Functions only move forward

A request makes one move of a function at most: it grows under the cursor, it is ended, verified or
abandoned, or it stays as it is (`Function.Move`). Two requests stand for several others, one after
the other: to finish a top-level expression is to end and to verify its function, and to wrap a
value is to begin one before (`Request.parts`). So the stages of a function only move forward, and
what is ended is frozen (`Session.stages_forward`).
-/

namespace StraightLine

/-! ### Moves -/

namespace Function

/-- What a request can make of a function, where `atCursor` says that the cursor is in it. -/
inductive Move (atCursor : Prop) (f : Function) : Function → Prop
  | stays : Move atCursor f f
  /-- Instructions are put behind its only block. -/
  | grows (b : Block) (code : List Instr) (cursor : atCursor) (stage : f.stage = .building)
      (single : f.blocks = [b]) :
      Move atCursor f { f with blocks := [{ b with instrs := b.instrs ++ code }] }
  /-- A return is put behind its only block. -/
  | ends (b : Block) (v : Operand) (cursor : atCursor) (stage : f.stage = .building)
      (single : f.blocks = [b]) :
      Move atCursor f
        { f with stage := .terminated, blocks := [{ b with instrs := b.instrs ++ [.ret v] }] }
  | passes (stage : f.stage = .terminated) : Move atCursor f { f with stage := .verified }
  | drops (stage : f.stage = .declared ∨ f.stage = .building ∨ f.stage = .terminated) :
      Move atCursor f { f with stage := .abandoned, blocks := [] }

/-- Moves that keep the stage make one such move. -/
theorem Move.trans_of_stage {P : Prop} {f g h : Function} (hfg : f.Move P g)
    (hg : g.stage = f.stage) (hgh : g.Move P h) (hh : h.stage = g.stage) : f.Move P h := by
  cases hfg with
  | stays => exact hgh
  | grows b code hcursor hstage hb =>
    cases hgh with
    | stays => exact .grows b code hcursor hstage hb
    | grows b' code' _ _ hb' =>
      obtain rfl : _ = b' := List.head_eq_of_cons_eq hb'
      have hgrown := Move.grows b (code ++ code') hcursor hstage hb
      rwa [← List.append_assoc] at hgrown
    | ends b' v _ hstage' _ =>
      rw [hstage'] at hh
      cases hh
    | passes hstage' =>
      rw [hstage'] at hh
      cases hh
    | drops hstage' =>
      rw [← hh] at hstage'
      simp at hstage'
  | ends b v _ hstage _ =>
    rw [hstage] at hg
    cases hg
  | passes hstage =>
    rw [hstage] at hg
    cases hg
  | drops hstage =>
    rw [← hg] at hstage
    simp at hstage

/-- A function as requests add it: declared, or begun and without code. -/
def IsNew (f : Function) : Prop :=
  f.instrs = [] ∧ f.stage = if f.isExternal then .declared else .building

/-- An abandoned function is abandoned again without a change. -/
theorem Formed.move_abandoned {f : Function} (hf : f.Formed) (hstage : f.stage ≠ .verified)
    (atCursor : Prop) : f.Move atCursor { f with stage := .abandoned, blocks := [] } := by
  have hphase := hf.phase
  cases hs : f.stage with
  | declared => exact .drops (.inl hs)
  | building => exact .drops (.inr (.inl hs))
  | terminated => exact .drops (.inr (.inr hs))
  | verified => exact absurd hs hstage
  | abandoned =>
    rw [hs] at hphase
    have hself : { f with stage := .abandoned, blocks := [] } = f := by
      cases hphase with
      | ended _ b hdone _ _ _ => simp at hdone
      | abandoned hblocks => rw [← hs, ← hblocks]
    rw [hself]
    exact .stays

/-- What passes verification and has a body was ended. -/
theorem Formed.terminated_of_wellFormed {f : Function} (hf : f.Formed) {A : Arities}
    (hwf : f.WellFormed A) (hext : f.isExternal = false)
    (hstage : f.stage ≠ .verified ∧ f.stage ≠ .abandoned) : f.stage = .terminated := by
  have hlive : f.isLive := by simp [isLive, hstage.2]
  have hbuilding := (hf.wellFormed_iff hlive hwf.typed).1 hwf
  have hphase := hf.phase
  cases hs : f.stage with
  | terminated => rfl
  | building => exact absurd hs hbuilding
  | verified => exact absurd hs hstage.1
  | abandoned => exact absurd hs hstage.2
  | declared =>
    rw [hs] at hphase
    cases hphase with
    | declared hexternal _ => cases hext.symm.trans hexternal
    | ended _ b hdone _ _ _ => simp at hdone

end Function

namespace Session

/-- The cursor is in the function at a place. -/
def AtCursor (s : Session) (place : Nat) : Prop :=
  ∃ c, s.draft.cursor = some c ∧ c.function = place

/-- All functions are still in their places and have made a move at most, and those that came are
new. -/
structure Advances (s t : Session) : Prop where
  moves : ∀ (place : Nat) (f : Function), s.module.functions[place]? = some f →
    ∃ g, t.module.functions[place]? = some g ∧ f.Move (s.AtCursor place) g
  births : ∀ (place : Nat) (f : Function), s.module.functions.length ≤ place →
    t.module.functions[place]? = some f → f.IsNew

variable {s t u : Session}

namespace Advances

theorem of_module (h : t.module = s.module) : s.Advances t where
  moves place f hf := ⟨f, by rw [h, hf], .stays⟩
  births place f hplace hf := by
    rw [h, List.getElem?_eq_none hplace] at hf
    cases hf

/-- One function makes a move. -/
theorem modified {place : Nat} {g : Function → Function}
    (hmodule : t.module = s.module.modify place g)
    (hg : ∀ f, s.module.functions[place]? = some f → f.Move (s.AtCursor place) (g f)) :
    s.Advances t where
  moves j f hf := by
    rw [hmodule]
    by_cases hj : place = j
    · subst hj
      exact ⟨g f, functions_modify hf g, hg f hf⟩
    · exact ⟨f, (functions_modify_of_ne hj g).trans hf, .stays⟩
  births j f hj hf := by
    have hlength : t.module.functions.length = s.module.functions.length := by
      rw [hmodule]
      exact List.length_modify ..
    rw [List.getElem?_eq_none (by omega)] at hf
    cases hf

/-- One function is added. -/
theorem added {f : Function} (hmodule : t.module = s.module.add f) (hf : f.IsNew) :
    s.Advances t where
  moves place g hg := by
    have hlt := (List.getElem?_eq_some_iff.1 hg).1
    rw [hmodule, Module.add, List.getElem?_append_left hlt]
    exact ⟨g, hg, .stays⟩
  births place g hplace hg := by
    rw [hmodule, Module.add, List.getElem?_append_right hplace] at hg
    obtain rfl : g = f := by simpa using List.mem_of_getElem? hg
    exact hf

end Advances

/-! ### Requests for code -/

/-- The open block under the cursor is the only one, and an instruction is put behind it. -/
theorem Formed.single_of_site (hs : s.Formed) {c : Cursor} {f : Function} {b : Block}
    (hsite : s.Site c f b) :
    f.blocks = [b] ∧
      ∀ i, f.appendTo c.block i = { f with blocks := [{ b with instrs := b.instrs ++ [i] }] } := by
  have hblocks := (hs.site hsite).2.2.2
  constructor
  · obtain ⟨b', _, hb', _⟩ :=
      (hs.functions f (List.mem_of_getElem? hsite.function)).of_building hsite.building
    have hmem := List.mem_of_find?_eq_some hsite.block
    rw [hb'] at hmem ⊢
    rw [List.mem_singleton.1 hmem]
  · intro i
    rw [← hblocks i]
    rfl

/-- Functions have only grown, and the cursor is where it was. -/
structure Lengthens (s t : Session) : Prop where
  cursor : t.draft.cursor = s.draft.cursor
  moves : ∀ (place : Nat) (f : Function), s.module.functions[place]? = some f →
    ∃ g, t.module.functions[place]? = some g ∧ g.stage = f.stage ∧ f.Move (s.AtCursor place) g
  length : t.module.functions.length = s.module.functions.length

namespace Lengthens

theorem refl (s : Session) : s.Lengthens s :=
  ⟨rfl, fun _ f hf => ⟨f, hf, rfl, .stays⟩, rfl⟩

theorem trans (h₁ : s.Lengthens t) (h₂ : t.Lengthens u) : s.Lengthens u where
  cursor := h₂.cursor.trans h₁.cursor
  moves place f hf := by
    obtain ⟨g, hg, hgstage, hfg⟩ := h₁.moves place f hf
    obtain ⟨h, hh, hhstage, hgh⟩ := h₂.moves place g hg
    have hcursor : t.AtCursor place = s.AtCursor place := by rw [AtCursor, AtCursor, h₁.cursor]
    rw [hcursor] at hgh
    exact ⟨h, hh, hhstage.trans hgstage, hfg.trans_of_stage hgstage hgh hhstage⟩
  length := h₂.length.trans h₁.length

theorem advances (h : s.Lengthens t) : s.Advances t where
  moves place f hf := by
    obtain ⟨g, hg, _, hmove⟩ := h.moves place f hf
    exact ⟨g, hg, hmove⟩
  births place f hplace hf := by
    rw [List.getElem?_eq_none (by have := h.length; omega)] at hf
    cases hf

/-- An instruction is put behind the block under the cursor. -/
theorem appended (hs : s.Formed) {c : Cursor} {f : Function} {b : Block} (hsite : s.Site c f b)
    (i : Instr) : s.Lengthens (s.appended c i) where
  cursor := rfl
  moves place g hg := by
    by_cases hplace : c.function = place
    · subst hplace
      obtain rfl : g = f := Option.some.inj (hg.symm.trans hsite.function)
      obtain ⟨hsingle, happend⟩ := hs.single_of_site hsite
      refine ⟨g.appendTo c.block i, functions_modify hg _, rfl, ?_⟩
      rw [happend i]
      exact .grows b [i] ⟨c, hsite.cursor, rfl⟩ hsite.building hsingle
    · exact ⟨g, (functions_modify_of_ne hplace _).trans hg, rfl, .stays⟩
  length := List.length_modify ..

theorem codeStep (hs : s.Formed) (h : s.CodeStep t) : s.Lengthens t := by
  have same {u : Session} (hcursor : u.draft.cursor = s.draft.cursor)
      (hmodule : u.module = s.module) : s.Lengthens u :=
    ⟨hcursor, fun _ f hf => ⟨f, by rw [hmodule, hf], rfl, .stays⟩, by rw [hmodule]⟩
  cases h with
  | skip _ => exact same rfl rfl
  | define c f b i hsite _ _ =>
    have h := appended hs hsite i
    exact ⟨h.cursor, h.moves, h.length⟩
  | append c f b i hsite _ _ => exact appended hs hsite i
  | float x => exact same rfl rfl
  | string bytes => exact same rfl rfl
  | value c f b i r t _ _ _ _ => exact same rfl rfl
  | slot c f b v r name _ _ => exact same rfl rfl

/-- Code is only put behind what is there. -/
theorem codeSteps (hs : s.Formed) (h : s.CodeSteps t) : s.Lengthens t ∧ t.Formed := by
  induction h with
  | refl => exact ⟨.refl s, hs⟩
  | tail _ hstep ih =>
    obtain ⟨hlengthens, hformed⟩ := ih
    exact ⟨hlengthens.trans (codeStep hformed hstep), hformed.codeStep hstep⟩

end Lengthens

/-! ### Requests -/

/-- The function under the cursor returns. -/
theorem Advances.returned (hs : s.Formed) {c : Cursor} {f : Function} {b : Block}
    (hsite : s.Site c f b) (v : Operand) : s.Advances (s.returned c v) := by
  obtain ⟨hsingle, happend⟩ := hs.single_of_site hsite
  rw [returned_eq]
  refine .modified rfl fun g hg => ?_
  obtain rfl : g = f := Option.some.inj (hg.symm.trans hsite.function)
  rw [happend (.ret v)]
  exact .ends b v ⟨c, hsite.cursor, rfl⟩ hsite.building hsingle

theorem advances_endFunction (hs : s.Formed) (function : FunctionId) (value : ValueId) :
    s.Advances (result (endFunction function value) s) := by
  refine result_query (.of_module rfl) fun _ hu => result_query (.of_module rfl) fun e he =>
    result_query (.of_module rfl) fun _ hends => result_query (.of_module rfl) fun v hv => ?_
  show s.Advances (result (returnValue e.index v) s)
  rcases returnValue_cases (site_of_checkEnds hu hends) v with ⟨e', h⟩ | ⟨c, f, b, hsite, _, h⟩
  · rw [result_error h]
    exact .of_module rfl
  · rw [result_ok h]
    exact .returned hs hsite v

/-- Only what was ended is marked as verified. -/
theorem Advances.verified (hs : s.Formed) {place : Nat} {f : Function}
    (hf : s.module.functions[place]? = some f)
    (hstage : f.stage ≠ .verified ∧ f.stage ≠ .abandoned) (hext : f.isExternal = false)
    (hcorrect : s.module.verifyFunction f = .ok ()) :
    s.Advances (s.changed place fun f => { f with stage := .verified }) := by
  refine .modified rfl fun g hg => .passes ?_
  obtain rfl : f = g := Option.some.inj (hf.symm.trans hg)
  exact (hs.functions f (List.mem_of_getElem? hf)).terminated_of_wellFormed
    (Module.verifyFunction_eq_ok.1 hcorrect) hext hstage

theorem advances_verifyFunction (hs : s.Formed) (function : FunctionId) :
    s.Advances (result (verifyFunction function) s) := by
  have hverdict := verifyFunction_verdict s function
  unfold result
  generalize verifyFunction function s = r at hverdict
  cases hverdict with
  | refused err _ => exact .of_module rfl
  | settled e _ _ => exact .of_module rfl
  | faulty e err _ _ _ => exact .of_module rfl
  | passed e _ he hstage hext hcorrect =>
    exact .verified hs (hs.functionAt (resolve_eq_ok he)) hstage hext hcorrect

theorem Advances.withdrawn (hs : s.Formed) {place : Nat}
    (hstage : (s.functionAt place).stage ≠ .verified) : s.Advances (s.withdrawn place) := by
  refine .modified (withdrawn_fields s place).2.2.2 fun f hf => ?_
  rw [functionAt, hf, Option.getD_some] at hstage
  exact (hs.functions f (List.mem_of_getElem? hf)).move_abandoned hstage _

theorem advances_abandonFunction (hs : s.Formed) (function : FunctionId) :
    s.Advances (result (abandonFunction function) s) := by
  rcases abandonFunction_cases s function with ⟨err, h⟩ | ⟨e, _, _, hstage, h⟩
  · rw [result_error h]
    exact .of_module rfl
  · rw [result_ok h]
    exact .withdrawn hs hstage

theorem Advances.opened (s : Session) (name : String) (params : List String) :
    s.Advances (s.opened name params) :=
  .added rfl ⟨rfl, rfl⟩

theorem advances_beginFunction (s : Session) (name : String) (params : List String) :
    s.Advances (result (beginFunction name params) s) := by
  rcases beginFunction_cases s name params with ⟨e, h⟩ | ⟨_, _, _, _, h⟩
  · rw [result_error h]
    exact .of_module rfl
  · rw [result_ok h]
    exact .opened s name params

theorem advances_declareFunction (s : Session) (name : String) (arity : Nat) :
    s.Advances (result (declareFunction name arity) s) := by
  rcases declareFunction_cases s name arity with ⟨e, h⟩ | ⟨_, _, _, h⟩
  · rw [result_error h]
    exact .of_module rfl
  · rw [result_ok h]
    exact .added rfl ⟨rfl, rfl⟩

theorem advances_beginTopLevel (s : Session) : s.Advances (result beginTopLevel s) := by
  rcases beginTopLevel_cases s with ⟨e, h⟩ | ⟨_, ⟨e, h⟩ | ⟨_, h⟩⟩
  · rw [result_error h]
    exact .of_module rfl
  · rw [result_error h]
    exact .of_module rfl
  · rw [result_ok h]
    have hopened := Advances.opened s.nameTaken s.wrappers.take.1 []
    exact ⟨hopened.moves, hopened.births⟩

/-- Every step makes a move of every function at most. -/
theorem Formed.advances_step (hs : s.Formed) (h : s.Step t) : s.Advances t := by
  cases h with
  | withdrawn e _ _ hstage => exact .withdrawn hs hstage
  | grow t h =>
    cases h with
    | code t h => exact (Lengthens.codeStep hs h).advances
    | opened name params _ _ _ _ => exact .opened s name params
    | declared name arity _ _ _ => exact .added rfl ⟨rfl, rfl⟩
    | ended c f b v hsite _ => exact .returned hs hsite v
    | verified e f _ _ hf hstage hext hcorrect => exact .verified hs hf hstage hext hcorrect
    | _ => exact .of_module rfl

end Session

namespace Request

/-- The requests that a request to a session stands for, one after the other. -/
def parts (s : Session) : Request → List Request
  | finishTopLevel f v => [endFunction f v, verifyFunction f]
  | wrapTopLevel v =>
    let f : FunctionId := ⟨s.id, s.functions.size⟩
    [beginTopLevel, endFunction f v, verifyFunction f]
  | r => [r]

end Request

namespace Session

variable {s t : Session}

/-- A request that is not made of others makes a move of every function at most. -/
theorem Formed.advances_request (hs : s.Formed) {r r' : Request} {u : Session}
    (hr : r ∈ r'.parts u) : s.Advances (s.request r).2 := by
  have built {α : Type} {x : SessionM α} (hx : Builds x) {g : α → Reply} :
      s.Advances (result (g <$> x) s) := by
    rw [result_map]
    exact (Lengthens.codeSteps hs (hx s)).1.advances
  rw [request_snd]
  cases r with
  | floatConstant c => exact built (builds_floatConstant c)
  | stringConstant bs => exact built (builds_stringConstant bs)
  | declareVariable v n => exact built (builds_declareVariable v n)
  | assign p v => exact built (builds_assign p v)
  | read p => exact built (builds_read p)
  | arith op a b => exact built (builds_arith op a b)
  | compare p a b => exact built (builds_compare p a b)
  | widen v => exact built (builds_widen v)
  | call f args => exact built (builds_call f args)
  | beginFunction n ps => exact (result_map _ _ s).symm ▸ advances_beginFunction s n ps
  | declareFunction n k => exact (result_map _ _ s).symm ▸ advances_declareFunction s n k
  | endFunction f v => exact (result_map _ _ s).symm ▸ advances_endFunction hs f v
  | verifyFunction f => exact (result_map _ _ s).symm ▸ advances_verifyFunction hs f
  | abandonFunction f => exact (result_map _ _ s).symm ▸ advances_abandonFunction hs f
  | beginTopLevel => exact (result_map _ _ s).symm ▸ advances_beginTopLevel s
  | finishTopLevel f v => cases r' <;> simp [Request.parts] at hr
  | wrapTopLevel v => cases r' <;> simp [Request.parts] at hr

/-- To finish a top-level expression is to end its function, and to verify it if that succeeds. -/
theorem finishTopLevel_parts (s : Session) (f : FunctionId) (v : ValueId) :
    ∃ path, path <+: [.endFunction f v, .verifyFunction f] ∧
      result (finishTopLevel f v) s = s.after path := by
  cases h : endFunction f v s with
  | error e t =>
    refine ⟨[.endFunction f v], ⟨[.verifyFunction f], rfl⟩, ?_⟩
    rw [finishTopLevel, result_error (andThen_of_error h)]
    simp only [after, List.foldl_cons, List.foldl_nil, request_of_error (r := .endFunction f v) rfl h]
  | ok a t =>
    refine ⟨_, List.prefix_rfl, ?_⟩
    rw [result, finishTopLevel, andThen_of_ok h]
    simp only [after, List.foldl_cons, List.foldl_nil, request_of_ok (r := .endFunction f v) rfl h]
    rw [request_snd, Request.perform, result_map]
    rfl

/-- To wrap a value is to begin a top-level expression, and to finish it if that succeeds. -/
theorem wrapTopLevel_parts (s : Session) (v : ValueId) :
    ∃ path, path <+: Request.parts s (.wrapTopLevel v) ∧
      result (wrapTopLevel v) s = s.after path := by
  let P (t : Session) : Prop :=
    ∃ path, path <+: Request.parts s (.wrapTopLevel v) ∧ t = s.after path
  have nothing : P s := ⟨[], List.nil_prefix, rfl⟩
  refine result_query (P := P) nothing fun _ _ => result_query nothing fun _ _ => ?_
  have begun {t : Session} (ht : result beginTopLevel s = t) : s.after [.beginTopLevel] = t := by
    simp only [after, List.foldl_cons, List.foldl_nil]
    rw [request_snd, Request.perform, result_map, ht]
  have failed {e : Error} {t : Session} (h : beginTopLevel s = .error e t) :
      P (result (do
        let wrapper ← beginTopLevel
        finishTopLevel wrapper v
        pure wrapper) s) := by
    refine ⟨[.beginTopLevel], ⟨_, rfl⟩, ?_⟩
    rw [result_error (andThen_of_error h), begun (result_error h)]
  rcases beginTopLevel_cases s with ⟨e, h⟩ | ⟨_, ⟨e, h⟩ | ⟨_, h⟩⟩
  · exact failed h
  · exact failed h
  · obtain ⟨path, hpath, hresult⟩ :=
      finishTopLevel_parts (s.nameTaken.opened s.wrappers.take.1 []) ⟨s.id, s.functions.size⟩ v
    refine ⟨.beginTopLevel :: path, List.cons_prefix_cons.2 ⟨rfl, hpath⟩, ?_⟩
    have hafter : s.after (.beginTopLevel :: path) = (s.after [.beginTopLevel]).after path := rfl
    rw [hafter, begun (result_ok h), ← hresult, result, andThen_of_ok h]
    -- To give the handle back does nothing.
    exact result_map (fun _ => (⟨s.id, s.functions.size⟩ : FunctionId)) _ _

/-- **A request is made of its parts**, up to the first that fails. -/
theorem request_parts (s : Session) (r : Request) :
    ∃ path, path <+: r.parts s ∧ (s.request r).2 = s.after path := by
  cases r with
  | finishTopLevel f v =>
    rw [request_snd, Request.perform, result_map]
    exact finishTopLevel_parts s f v
  | wrapTopLevel v =>
    rw [request_snd, Request.perform, result_map]
    exact wrapTopLevel_parts s v
  | _ => exact ⟨_, List.prefix_rfl, rfl⟩

/-! ### Shapes -/

end Session

/-- Closed code ends with a return, and has no other. -/
theorem Code.Closed.eq_concat {is : List Instr} (h : Closed is) :
    ∃ code v, is = code ++ [.ret v] ∧ Open code := by
  induction is with
  | nil => cases h
  | cons i is ih =>
    cases hi : i.isTerminator with
    | true =>
      obtain ⟨v, rfl⟩ : ∃ v, i = .ret v := by
        cases i with
        | ret v => exact ⟨v, rfl⟩
        | _ => cases hi
      obtain rfl : is = [] := by simpa [Closed, hi] using h
      exact ⟨[], v, rfl, by simp [Open]⟩
    | false =>
      obtain ⟨code, v, rfl, hopen⟩ := ih (by simpa [Closed, hi] using h)
      exact ⟨i :: code, v, rfl, List.forall_mem_cons.2 ⟨hi, hopen⟩⟩

/-- Open code has no return. -/
theorem Code.Open.ret_not_mem {is : List Instr} (h : Open is) (v : Operand) : .ret v ∉ is := by
  intro hmem
  cases h _ hmem

namespace Function.Formed

variable {f : Function}

theorem stage_of_external (hf : f.Formed) (hext : f.isExternal) :
    f.stage = .declared ∨ f.stage = .abandoned := by
  have hphase := hf.phase
  generalize f.stage = stage at hphase
  cases hphase with
  | declared _ _ => exact .inl rfl
  | building b hint _ _ => cases hint.symm.trans hext
  | ended _ b _ hint _ _ => cases hint.symm.trans hext
  | abandoned _ => exact .inr rfl

/-- A live function with a body has one block, with a return exactly when it was ended, and nothing
behind the return. -/
theorem single_return (hf : f.Formed) (hlive : f.isLive) (hext : f.isExternal = false) :
    ∃ b, f.blocks = [b] ∧
      ((∃ v, .ret v ∈ b.instrs) ↔ f.stage = .terminated ∨ f.stage = .verified) ∧
      ∀ code v rest, b.instrs = code ++ .ret v :: rest → rest = [] := by
  have hphase := hf.phase
  have habandoned : f.stage ≠ .abandoned := by simpa [isLive] using hlive
  generalize f.stage = stage at hphase habandoned
  cases hphase with
  | declared hexternal _ => cases hext.symm.trans hexternal
  | abandoned _ => exact absurd rfl habandoned
  | building b _ hb hopen =>
    have hnone : ¬ ∃ v, .ret v ∈ b.instrs := by
      rintro ⟨v, hv⟩
      exact hopen.ret_not_mem v hv
    refine ⟨b, hb, ⟨fun hret => absurd hret hnone, by simp⟩, ?_⟩
    intro code v rest hsplit
    exact absurd (by simp [hsplit]) (hopen.ret_not_mem v)
  | ended _ b hdone _ hb hclosed =>
    obtain ⟨before, w, hreturn, hopen⟩ := hclosed.eq_concat
    refine ⟨b, hb, ⟨fun _ => hdone, fun _ => ⟨w, by simp [hreturn]⟩⟩, ?_⟩
    intro code v rest hsplit
    -- The first return is the last instruction, since there is none before that one.
    rcases List.eq_nil_or_concat rest with hrest | ⟨rest, i, rfl⟩
    · exact hrest
    · have hlast : before ++ [.ret w] = (code ++ .ret v :: rest) ++ [i] := by
        rw [← hreturn, hsplit]
        simp
      have heq := (List.append_inj' hlast rfl).1
      exact absurd (by simp [heq]) (hopen.ret_not_mem v)

end Function.Formed

namespace Session

/-- **Functions only move forward, and what is ended is frozen.** After every history, a request is
made of its parts, and each of them leaves every function as it is, or puts instructions behind the
only block of the function under the cursor if that is being built, or ends that function, or marks
a function as verified that was ended, or abandons one that is not verified, with its body. External
functions are declared or abandoned, and every other live function has one block, with a return
exactly when it was ended, and then at the end. -/
theorem stages_forward (id : Nat) (o : SessionOptions) (target : Target) (history : List Request)
    (r : Request) :
    let s := (start id o target).after history
    (∃ path, path <+: r.parts s ∧ (s.request r).2 = s.after path ∧
      ∀ before next rest, path = before ++ next :: rest →
        (s.after before).Advances ((s.after before).request next).2) ∧
    ∀ f ∈ s.module.functions,
      (f.isExternal → f.stage = .declared ∨ f.stage = .abandoned) ∧
      (f.isLive → f.isExternal = false → ∃ b, f.blocks = [b] ∧
        ((∃ v, .ret v ∈ b.instrs) ↔ f.stage = .terminated ∨ f.stage = .verified) ∧
        ∀ code v rest, b.instrs = code ++ .ret v :: rest → rest = []) := by
  intro s
  have hs : s.Formed := .after id o target history
  constructor
  · obtain ⟨path, hpath, hresult⟩ := s.request_parts r
    refine ⟨path, hpath, hresult, ?_⟩
    rintro before next rest rfl
    have hformed : (s.after before).Formed := after_induction (fun _ _ hs h => hs.step h) hs before
    exact hformed.advances_request (hpath.subset (by simp))
  · intro f hf
    have hformed := hs.functions f hf
    exact ⟨hformed.stage_of_external, hformed.single_return⟩

end Session

end StraightLine
