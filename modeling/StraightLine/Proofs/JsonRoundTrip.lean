import StraightLine.Ast.Json
import StraightLine.Ir.Json
import StraightLine.Proofs.JsonForms

/-!
# Programs and modules in JSON

The text of a program or a module is read as the same program or module, double by double, when
every double in it is finite and brackets nest less than 128 deep in the text; otherwise it is
refused (`Json.roundTrip`). That a finite double is read as it is written (`Json.ReadsBack`) is an
assumption on the doubles that occur.
-/

namespace StraightLine

open Json

/-! ### Programs -/

mutual

/-- The numbers that are written in an expression. -/
def Expr.floats : Expr → List Float
  | .number c => [c.value]
  | .string _ | .var _ => []
  | .binary _ l r => l.floats ++ r.floats
  | .call _ args => Expr.allFloats args

/-- The numbers that are written in expressions. -/
def Expr.allFloats : List Expr → List Float
  | [] => []
  | e :: es => e.floats ++ Expr.allFloats es

end

/-- The expression of a statement. -/
def Stmt.value : Stmt → Expr
  | .bind _ e | .assign _ e | .eval e | .ret e => e

/-- The numbers that are written in an item. -/
def Item.floats : Item → List Float
  | .function _ body => body.flatMap fun s => s.value.floats
  | .external _ => []
  | .topLevel e => e.floats

/-- The numbers that are written in a program. -/
def Program.floats (p : Program) : List Float := p.items.flatMap Item.floats

mutual

theorem Expr.floats_toJson (e : Expr) : e.toJson.floats = e.floats := by
  match e with
  | .number c => simp [Expr.toJson, Expr.floats]
  | .string s => simp [Expr.toJson, Expr.floats]
  | .var n => simp [Expr.toJson, Expr.floats]
  | .binary op l r => simp [Expr.toJson, Expr.floats, l.floats_toJson, r.floats_toJson]
  | .call f args => simp [Expr.toJson, Expr.floats, Expr.floats_toJsons args]

theorem Expr.floats_toJsons (es : List Expr) : (toJsons es).flatMap Json.floats = allFloats es := by
  match es with
  | [] => rfl
  | e :: es => simp [Expr.toJsons, Expr.allFloats, e.floats_toJson, Expr.floats_toJsons es]

end

theorem Expr.toJsons_eq_map (es : List Expr) : toJsons es = es.map toJson := by
  induction es with
  | nil => rfl
  | cons e es ih => rw [toJsons, ih, List.map_cons]

theorem Stmt.floats_toJson (s : Stmt) : s.toJson.floats = s.value.floats := by
  cases s <;> simp [Stmt.toJson, Stmt.value, Expr.floats_toJson]

theorem Item.floats_toJson (i : Item) : i.toJson.floats = i.floats := by
  cases i with
  | function p body =>
    simp [Item.toJson, Item.floats, Prototype.toJson, List.flatMap_map, Stmt.floats_toJson]
  | external p => simp [Item.toJson, Item.floats, Prototype.toJson, List.flatMap_map]
  | topLevel e => simp [Item.toJson, Item.floats, Expr.floats_toJson]

theorem Program.floats_toJson (p : Program) : p.toJson.floats = p.floats := by
  simp [Program.toJson, Program.floats, List.flatMap_map, Item.floats_toJson]

theorem BinaryOp.form (op : BinaryOp) : Form BinaryOp.read (ofString op.tag) op :=
  form_oneOf (by cases op <;> decide)

/-- Reads an operator and its two sides. -/
def Expr.readBinary : Reader Expr :=
  Reader.record ["op", "left", "right"] fun d js =>
    match js with
    | [op, l, r] => do pure (.binary (← BinaryOp.read d op) (← Expr.read d l) (← Expr.read d r))
    | _ => none

/-- Reads a name and arguments. -/
def Expr.readCall : Reader Expr :=
  Reader.record ["callee", "args"] fun d js =>
    match js with
    | [f, args] => do pure (.call (← Reader.string d f) (← Reader.list Expr.read d args))
    | _ => none

theorem Expr.read_binary (d : Nat) (j : Json) :
    Expr.read (d + 1) (tagged "Binary" j) = Expr.readBinary d j := by
  cases d with
  | zero => rfl
  | succ d =>
    rw [Expr.read, Expr.readBinary, Reader.record]
    simp only [tagged, ofMembers, List.map, Reader.choice]
    cases Reader.fields ["op", "left", "right"] j with
    | none => rfl
    | some js => rcases js with _ | ⟨_, _ | ⟨_, _ | ⟨_, _ | _⟩⟩⟩ <;> rfl

theorem Expr.read_call (d : Nat) (j : Json) :
    Expr.read (d + 1) (tagged "Call" j) = Expr.readCall d j := by
  cases d with
  | zero => rfl
  | succ d =>
    rw [Expr.read, Expr.readCall, Reader.record]
    simp only [tagged, ofMembers, List.map, Reader.choice]
    -- With no bracket left for the list of arguments nothing is read.
    cases Reader.fields ["callee", "args"] j with
    | none => cases d <;> rfl
    | some js =>
      rcases js with _ | ⟨f, _ | ⟨args, _ | _⟩⟩
      · cases d <;> rfl
      · cases d <;> rfl
      · cases d with
        | zero => simp [Reader.list]
        | succ d => cases args <;> simp [Reader.list]
      · cases d with
        | zero => rfl
        | succ d => cases args <;> rfl

mutual

/-- **An expression has a form.** -/
theorem Expr.form (e : Expr) : Form Expr.read e.toJson e := by
  match e with
  | .number c => exact ((form_numeral c).map Expr.number).tagged (fun _ => rfl) fun _ _ => rfl
  | .string s => exact ((form_string s).map Expr.string).tagged (fun _ => rfl) fun _ _ => rfl
  | .var n => exact ((form_string n).map Expr.var).tagged (fun _ => rfl) fun _ _ => rfl
  | .binary op l r =>
    have hop := op.form
    have hl := l.form
    have hr := r.form
    refine Form.tagged (r := Expr.readBinary) ?_ (fun _ => rfl) Expr.read_binary
    refine form_record rfl (by decide) ?_ ?_
    · simp [hop.writable, hl.writable, hr.writable]
    · intro d
      simp [hop.read, hl.read, hr.read]
  | .call f args =>
    have hf := form_string f
    have hargs := form_list (Expr.forms args)
    refine Form.tagged (r := Expr.readCall) ?_ (fun _ => rfl) Expr.read_call
    rw [Expr.toJsons_eq_map]
    refine form_record rfl (by decide) ?_ ?_
    · simp [hf.writable, hargs.writable]
    · intro d
      simp [hf.read, hargs.read]

theorem Expr.forms (es : List Expr) : ∀ e ∈ es, Form Expr.read e.toJson e := by
  match es with
  | [] => simp
  | e :: es =>
    have he := e.form
    have hes := Expr.forms es
    simpa using ⟨he, hes⟩

end

theorem Stmt.form_named (n : String) (e : Expr) :
    Form Stmt.readNamed (ofMembers [("name", ofString n), ("value", e.toJson)]) (n, e) := by
  have hn := form_string n
  have he := e.form
  refine form_record rfl (by decide) ?_ ?_
  · simp [hn.writable, he.writable]
  · intro d
    simp [hn.read, he.read]

theorem Stmt.form (s : Stmt) : Form Stmt.read s.toJson s := by
  cases s with
  | bind n e =>
    have h := (Stmt.form_named n e).map fun p => Stmt.bind p.1 p.2
    exact h.tagged (fun _ => rfl) fun _ _ => rfl
  | assign n e =>
    have h := (Stmt.form_named n e).map fun p => Stmt.assign p.1 p.2
    exact h.tagged (fun _ => rfl) fun _ _ => rfl
  | eval e => exact (e.form.map Stmt.eval).tagged (fun _ => rfl) fun _ _ => rfl
  | ret e => exact (e.form.map Stmt.ret).tagged (fun _ => rfl) fun _ _ => rfl

theorem Prototype.form (p : Prototype) : Form Prototype.read p.toJson p := by
  have hn := form_string p.name
  have hps := form_list fun x (_ : x ∈ p.params) => form_string x
  refine form_record rfl (by decide) ?_ ?_
  · simp [hn.writable, hps.writable]
  · intro d
    simp [hn.read, hps.read]

theorem Item.form (i : Item) : Form Item.read i.toJson i := by
  cases i with
  | function p body =>
    have hp := p.form
    have hbody := form_list fun s (_ : s ∈ body) => s.form
    refine Form.tagged (r := Item.readFunction) ?_ (fun _ => rfl) fun _ _ => rfl
    refine form_record rfl (by decide) ?_ ?_
    · simp [hp.writable, hbody.writable]
    · intro d
      simp [hp.read, hbody.read]
  | external p => exact (p.form.map Item.external).tagged (fun _ => rfl) fun _ _ => rfl
  | topLevel e => exact (e.form.map Item.topLevel).tagged (fun _ => rfl) fun _ _ => rfl

/-- **A program has a form.** -/
theorem Program.form (p : Program) : Form Program.read p.toJson p := by
  have his := form_list fun i (_ : i ∈ p.items) => i.form
  refine form_record rfl (by decide) ?_ ?_
  · simp [his.writable]
  · intro d
    simp [his.read]

/-! ### Modules -/

/-- The constant doubles of an instruction. -/
def Instr.floats (i : Instr) : List Float :=
  i.operands.filterMap fun o => o.float?.map Numeral.value

/-- The constant doubles of a module. -/
def Module.floats (m : Module) : List Float :=
  m.functions.flatMap fun f => f.blocks.flatMap fun b => b.instrs.flatMap Instr.floats

/-- The temps that an instruction defines and reads. -/
def Instr.temps (i : Instr) : List Nat := i.result?.toList ++ i.uses

/-- The numbers of a block: its own, and those of the temps in it. -/
def Block.numbers (b : Block) : List Nat := b.id :: b.instrs.flatMap Instr.temps

/-- The numbers of blocks and temps in a function. -/
def Function.numbers (f : Function) : List Nat :=
  f.params.map Prod.fst ++ f.blocks.flatMap Block.numbers

/-- The numbers of blocks and temps in a module. -/
def Module.numbers (m : Module) : List Nat := m.functions.flatMap Function.numbers

@[simp] theorem Ty.floats_toJson (t : Ty) : t.toJson.floats = [] := by
  induction t with
  | double => simp [Ty.toJson]
  | i1 => simp [Ty.toJson]
  | i8 => simp [Ty.toJson]
  | ptr t ih => simp [Ty.toJson, ih]
  | array n t ih => simp [Ty.toJson, ih]

theorem Operand.floats_toJson (o : Operand) :
    o.toJson.floats = (o.float?.map Numeral.value).toList := by
  cases o <;> simp [Operand.toJson, Operand.float?, List.flatMap_map]

theorem Instr.floats_toJson (i : Instr) : i.toJson.floats = i.floats := by
  rw [Instr.floats, List.filterMap_eq_flatMap_toList]
  cases i <;> simp [Instr.toJson, Instr.operands, Operand.floats_toJson, List.flatMap_map]

theorem Function.floats_toJson (f : Function) :
    f.toJson.floats = f.blocks.flatMap fun b => b.instrs.flatMap Instr.floats := by
  simp [Function.toJson, Block.toJson, Instr.floats_toJson, List.flatMap_map]

theorem Module.floats_toJson (m : Module) : m.toJson.floats = m.floats := by
  cases h : m.triple <;>
    simp [Module.toJson, Module.floats, Function.floats_toJson, List.flatMap_map, h]

/-- Reads a length and a type. -/
def Ty.readArray : Reader Ty :=
  Reader.record ["size", "element_type"] fun d js =>
    match js with
    | [n, t] => do pure (.array (← Reader.size d n) (← Ty.read d t))
    | _ => none

theorem Ty.read_array (d : Nat) (j : Json) :
    Ty.read (d + 1) (tagged "Array" j) = Ty.readArray d j := by
  cases d with
  | zero => rfl
  | succ d =>
    rw [Ty.read, Ty.readArray, Reader.record]
    simp only [tagged, ofMembers, List.map, Reader.choice]
    cases Reader.fields ["size", "element_type"] j with
    | none => rfl
    | some js => rcases js with _ | ⟨_, _ | ⟨_, _ | _⟩⟩ <;> rfl

theorem Ty.form (t : Ty) : Form Ty.read t.toJson t := by
  induction t with
  | double => exact form_name fun d => by cases d <;> rfl
  | i1 => exact form_name fun d => by cases d <;> rfl
  | i8 => exact form_name fun d => by cases d <;> rfl
  | ptr t ih => exact (ih.map Ty.ptr).tagged (fun _ => rfl) fun _ _ => rfl
  | array n t ih =>
    have hn := form_size n
    refine Form.tagged (r := Ty.readArray) ?_ (fun _ => rfl) Ty.read_array
    refine form_record rfl (by decide) ?_ ?_
    · simp [hn.writable, ih.writable]
    · intro d
      simp [hn.read, ih.read]

theorem Operand.form {o : Operand} (h : ∀ n, o.temp? = some n → n < UInt32.size) :
    Form Operand.read o.toJson o := by
  cases o with
  | temp id => exact ((form_word (h id rfl)).map Operand.temp).tagged (fun _ => rfl) fun _ _ => rfl
  | float c => exact ((form_numeral c).map Operand.float).tagged (fun _ => rfl) fun _ _ => rfl
  | bool b => exact ((form_bool b).map Operand.bool).tagged (fun _ => rfl) fun _ _ => rfl
  | string bytes =>
    have hbytes := form_list fun b (_ : b ∈ bytes) => form_byte b
    exact (hbytes.map Operand.string).tagged (fun _ => rfl) fun _ _ => rfl
  | function name =>
    exact ((form_string name).map Operand.function).tagged (fun _ => rfl) fun _ _ => rfl
  | undef => exact form_name fun d => by cases d <;> rfl

theorem Arith.form (op : Arith) : Form Arith.read (ofString op.tag) op :=
  form_oneOf (by cases op <;> decide)

theorem Predicate.form (p : Predicate) : Form Predicate.read (ofString p.tag) p :=
  form_oneOf (by cases p <;> decide)

theorem Stage.form (s : Stage) : Form Stage.read (ofString s.tag) s :=
  form_oneOf (by cases s <;> decide)

theorem Instr.form {i : Instr} (h : ∀ n ∈ i.temps, n < UInt32.size) :
    Form Instr.read i.toJson i := by
  have hresult {r : Nat} (hr : i.result? = some r) : Form Reader.word (.natural r) r := by
    refine form_word (h r ?_)
    simp [Instr.temps, hr]
  have hoperand : ∀ o ∈ i.operands, Form Operand.read o.toJson o := by
    intro o ho
    refine Operand.form fun n hn => h n ?_
    exact List.mem_append_right _ (List.mem_filterMap.mpr ⟨o, ho, hn⟩)
  cases i with
  | alloca r t n =>
    have hr := hresult rfl
    have ht := t.form
    have hn := form_string n
    refine Form.tagged (r := Instr.readFields "Alloca") ?_ (fun _ => rfl) fun _ _ => rfl
    refine form_record rfl (by decide) ?_ ?_
    · simp [hr.writable, ht.writable, hn.writable]
    · intro d
      simp [hr.read, ht.read, hn.read]
  | load r p t =>
    have hr := hresult rfl
    have hp := hoperand p (by simp [Instr.operands])
    have ht := t.form
    refine Form.tagged (r := Instr.readFields "Load") ?_ (fun _ => rfl) fun _ _ => rfl
    refine form_record rfl (by decide) ?_ ?_
    · simp [hr.writable, hp.writable, ht.writable]
    · intro d
      simp [hr.read, hp.read, ht.read]
  | store v p =>
    have hv := hoperand v (by simp [Instr.operands])
    have hp := hoperand p (by simp [Instr.operands])
    refine Form.tagged (r := Instr.readFields "Store") ?_ (fun _ => rfl) fun _ _ => rfl
    refine form_record rfl (by decide) ?_ ?_
    · simp [hv.writable, hp.writable]
    · intro d
      simp [hv.read, hp.read]
  | arith r op a b =>
    have hr := hresult rfl
    have hop := op.form
    have ha := hoperand a (by simp [Instr.operands])
    have hb := hoperand b (by simp [Instr.operands])
    refine Form.tagged (r := Instr.readFields "Binary") ?_ (fun _ => rfl) fun _ _ => rfl
    refine form_record rfl (by decide) ?_ ?_
    · simp [hr.writable, hop.writable, ha.writable, hb.writable]
    · intro d
      simp [hr.read, hop.read, ha.read, hb.read]
  | compare r p a b =>
    have hr := hresult rfl
    have hp := p.form
    have ha := hoperand a (by simp [Instr.operands])
    have hb := hoperand b (by simp [Instr.operands])
    refine Form.tagged (r := Instr.readFields "FCmp") ?_ (fun _ => rfl) fun _ _ => rfl
    refine form_record rfl (by decide) ?_ ?_
    · simp [hr.writable, hp.writable, ha.writable, hb.writable]
    · intro d
      simp [hr.read, hp.read, ha.read, hb.read]
  | widen r v =>
    have hr := hresult rfl
    have hv := hoperand v (by simp [Instr.operands])
    refine Form.tagged (r := Instr.readFields "UIToFP") ?_ (fun _ => rfl) fun _ _ => rfl
    refine form_record rfl (by decide) ?_ ?_
    · simp [hr.writable, hv.writable]
    · intro d
      simp [hr.read, hv.read]
  | call r f args =>
    have hr := hresult rfl
    have hf := hoperand f (by simp [Instr.operands])
    have hargs := form_list fun a (ha : a ∈ args) => hoperand a (by simp [Instr.operands, ha])
    refine Form.tagged (r := Instr.readFields "Call") ?_ (fun _ => rfl) fun _ _ => rfl
    refine form_record rfl (by decide) ?_ ?_
    · simp [hr.writable, hf.writable, hargs.writable]
    · intro d
      simp [hr.read, hf.read, hargs.read]
  | ret v =>
    have hv := hoperand v (by simp [Instr.operands])
    exact (hv.map Instr.ret).tagged (fun _ => rfl) fun _ _ => rfl

theorem Block.form {b : Block} (h : ∀ n ∈ b.numbers, n < UInt32.size) :
    Form Block.read b.toJson b := by
  have hid := form_word (h b.id List.mem_cons_self)
  have hname := form_string b.name
  have hinstrs : Form (Reader.list Instr.read) (.array (b.instrs.map Instr.toJson)) b.instrs := by
    refine form_list fun i hi => Instr.form fun n hn => h n ?_
    exact List.mem_cons_of_mem _ (List.mem_flatMap_of_mem hi hn)
  refine form_record rfl (by decide) ?_ ?_
  · simp [hid.writable, hname.writable, hinstrs.writable]
  · intro d
    simp [hid.read, hname.read, hinstrs.read]

theorem Function.form {f : Function} (h : ∀ n ∈ f.numbers, n < UInt32.size) :
    Form Function.read f.toJson f := by
  have hname := form_string f.name
  have htype := f.returnType.form
  have hparams : Form (Reader.list (Reader.pair Reader.word Reader.string))
      (.array (f.params.map fun p => .array [.natural p.1, ofString p.2])) f.params := by
    refine form_list fun p hp => form_pair (form_word (h p.1 ?_)) (form_string p.2)
    exact List.mem_append_left _ (List.mem_map_of_mem hp)
  have hblocks : Form (Reader.list Block.read) (.array (f.blocks.map Block.toJson)) f.blocks := by
    refine form_list fun b hb => Block.form fun n hn => h n ?_
    exact List.mem_append_right _ (List.mem_flatMap_of_mem hb hn)
  have hexternal := form_bool f.isExternal
  have hstage := f.stage.form
  refine form_record rfl (by decide) ?_ ?_
  · simp [hname.writable, htype.writable, hparams.writable, hblocks.writable, hexternal.writable,
      hstage.writable]
  · intro d
    simp [hname.read, htype.read, hparams.read, hblocks.read, hexternal.read, hstage.read]

/-- **A module has a form**, if its numbers have 32 bits. -/
theorem Module.form {m : Module} (h : ∀ n ∈ m.numbers, n < UInt32.size) :
    Form Module.read m.toJson m := by
  have hname := form_string m.name
  have htriple := form_option m.triple
  have hfunctions : Form (Reader.list Function.read) (.array (m.functions.map Function.toJson))
      m.functions := by
    refine form_list fun f hf => Function.form fun n hn => h n ?_
    exact List.mem_flatMap_of_mem hf hn
  have hform : m.toJson = ofMembers [("name", ofString m.name),
      ("target_triple", (m.triple.map ofString).getD .null),
      ("functions", .array (m.functions.map Function.toJson))] := by
    rw [Module.toJson]
    cases m.triple <;> rfl
  rw [hform]
  refine form_record rfl (by decide) ?_ ?_
  · simp [hname.writable, htriple.writable, hfunctions.writable]
  · intro d
    simp [hname.read, htriple.read, hfunctions.read]

/-! ### Reading a text back -/

namespace Json

/-- **The text of a program or a module is read as what was written**, if every double is finite
and brackets nest less than 128 deep in the text, and is refused otherwise: a double that is not
finite is written as `null`, which is not read as a double. -/
theorem roundTrip (p : Program) (m : Module) (hp : ∀ x ∈ p.floats, x.isFinite → ReadsBack x)
    (hm : ∀ x ∈ m.floats, x.isFinite → ReadsBack x) (hn : ∀ n ∈ m.numbers, n < UInt32.size) :
    (Program.ofJsonText p.jsonText =
      if (∀ x ∈ p.floats, x.isFinite) ∧ nesting p.jsonText < 128 then some p else none) ∧
    (Module.ofJsonText m.jsonText =
      if (∀ x ∈ m.floats, x.isFinite) ∧ nesting m.jsonText < 128 then some m else none) ∧
    (∀ x : Float, x.isFinite = false → (ofFloat x).render = "null") ∧
    ∀ d, Reader.float d null = none := by
  refine ⟨?_, ?_, fun x hx => render_of_not_isFinite hx, fun _ => rfl⟩
  · rw [← p.floats_toJson] at hp ⊢
    exact p.form.read_text hp
  · rw [← m.floats_toJson] at hm ⊢
    exact (Module.form hn).read_text hm

/-- A sum of `n + 1` numbers. -/
def tower : Nat → Expr
  | 0 => .number 2.5
  | n + 1 => .binary .add (tower n) (.number 1e21)

/-- A function that returns a sum of `n + 1` numbers. -/
def towerProgram (n : Nat) : Program where
  items := [.function { name := "f", params := ["x"] } [.ret (tower n)]]

/-- A function that returns a constant. -/
def constantModule (x : Float) : Module where
  name := "m"
  functions := [{
    name := "f"
    blocks := [{ id := 0, name := "entry", instrs := [.ret (.constant x)] }] }]

theorem floats_towerProgram (n : Nat) :
    ∀ x ∈ (towerProgram n).floats, x.isFinite ∧ ReadsBack x := by
  have hseen : ∀ x ∈ (tower n).floats, x ∈ [2.5, 1e21] := by
    induction n with
    | zero => simp [tower, Expr.floats]
    | succ n ih =>
      intro x hx
      rcases List.mem_append.mp hx with hx | hx
      · exact ih x hx
      · exact List.mem_cons_of_mem _ (by simpa [Expr.floats] using hx)
  have hgood : ∀ x ∈ [2.5, 1e21], x.isFinite ∧ ReadsBack x := by decide +kernel
  intro x hx
  refine hgood x (hseen x ?_)
  simpa [towerProgram, Program.floats, Item.floats, Stmt.value] using hx

theorem nesting_towerProgram (n : Nat) : nesting (towerProgram n).jsonText = 2 * n + 7 := by
  have hdepth : (tower n).toJson.depth = 2 * n + 1 := by
    induction n with
    | zero => simp [tower, Expr.toJson, tagged, ofMembers, ofFloat, depth]
    | succ n ih =>
      simp [tower, Expr.toJson, tagged, ofMembers, ofFloat, ofString, depth, ih]
      omega
  have hfloats : ∀ x ∈ (towerProgram n).toJson.floats, x.isFinite → ReadsBack x := by
    intro x hx _
    rw [Program.floats_toJson] at hx
    exact (floats_towerProgram n x hx).2
  rw [Program.jsonText, nesting_render (towerProgram n).form.writable hfloats]
  simp [towerProgram, Program.toJson, Item.toJson, Prototype.toJson, Stmt.toJson, tagged, ofMembers,
    ofString, depth, hdepth]

theorem nesting_constantModule {x : Float} (hx : ReadsBack x) :
    nesting (constantModule x).jsonText = 8 := by
  have hform : Form Module.read (constantModule x).toJson (constantModule x) :=
    Module.form (by simp [constantModule, Module.numbers, Function.numbers, Block.numbers,
      Instr.temps, Instr.result?, Instr.uses, Instr.operands, Operand.temp?])
  have hfloats : ∀ y ∈ (constantModule x).toJson.floats, y.isFinite → ReadsBack y := by
    rw [Module.floats_toJson]
    simpa [constantModule, Module.floats, Instr.floats, Instr.operands, Operand.float?] using
      fun _ => hx
  rw [Module.jsonText, nesting_render hform.writable hfloats]
  simp [constantModule, Module.toJson, Function.toJson, Block.toJson, Instr.toJson, Operand.toJson,
    Ty.toJson, Stage.tag, tagged, ofMembers, ofString, ofFloat, depth]

/-- A sum with 60 operators has a text in which brackets nest 127 deep, which is read back; with one
operator more they nest 129 deep, which is refused, and so is an infinite constant. -/
theorem roundTrip_towers :
    Program.ofJsonText (towerProgram 60).jsonText = some (towerProgram 60) ∧
    Program.ofJsonText (towerProgram 61).jsonText = none ∧
    Module.ofJsonText (constantModule 0.1).jsonText = some (constantModule 0.1) ∧
    Module.ofJsonText (constantModule (1 / 0)).jsonText = none := by
  have hfinite := roundTrip (towerProgram 60) (constantModule 0.1)
    (fun x hx _ => (floats_towerProgram 60 x hx).2) (by decide +kernel) (by decide +kernel)
  have hothers := roundTrip (towerProgram 61) (constantModule (1 / 0))
    (fun x hx _ => (floats_towerProgram 61 x hx).2) (by decide +kernel) (by decide +kernel)
  refine ⟨?_, ?_, ?_, ?_⟩
  · rw [hfinite.1, if_pos]
    exact ⟨fun x hx => (floats_towerProgram 60 x hx).1, by rw [nesting_towerProgram]; decide⟩
  · rw [hothers.1, if_neg]
    rw [nesting_towerProgram]
    exact fun h => absurd h.2 (by decide)
  · rw [hfinite.2.1, if_pos]
    exact ⟨by decide +kernel, by rw [nesting_constantModule (by decide +kernel)]; decide⟩
  · rw [hothers.2.1, if_neg]
    exact fun h => absurd h.1 (by decide +kernel)

end Json

end StraightLine
