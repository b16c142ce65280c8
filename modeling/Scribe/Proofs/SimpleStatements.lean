import Scribe.Proofs.Evolution
import Scribe.Proofs.Termination

/-!
# Simple statements

Declarations, assignments and changes of containers work in two parts. First their operands are
evaluated: that takes new storage, and sets and maps that are written out are filled there, but as
long as nothing is called and nothing is popped it leaves alone what was there before (`eval_keeps`).
Then one place gets its new contents. All that can fail comes before that, so a statement that fails
has changed nothing, and one that succeeds has changed the place that it names and nothing else
(`simple_statement_writes_one_place`).
-/

namespace Scribe.Core

/-- Calls, and pops that give a value. -/
def Expr.isEffect : Expr → Bool
  | .call _ _ _ _ | .pop _ _ => true
  | _ => false

/-- Declarations, assignments and changes of containers. -/
def Stmt.isSimple : Stmt → Bool
  | .declare _ _ | .assign _ _ | .add _ _ | .push _ _ | .pop _ => true
  | _ => false

end Scribe.Core

namespace Scribe.Machine

open Scribe.Core

/-! ## Places -/

/-- What a statement can write to: a local or an argument of the innermost frame, or a piece of
storage. -/
inductive Target where
  | binding (id : LocalId)
  | argument (index : Nat)
  | cell (c : Cell)

/-- The place that a statement names in a state. Operands are evaluated in their order, the new value
of an assignment first. -/
inductive Names (env : Env) (s : State) : Stmt → Target → Prop where
  | declare {id value} : Names env s (.declare id value) (.binding id)
  | binding {id t value} : Names env s (.assign (.var (.binding id) t) value) (.binding id)
  | argument {id index t value} :
      Names env s (.assign (.var (.argument id index) t) value) (.argument index)
  | field {id model index a t value}
      (hreceiver : s.frames.head?.bind (·.receiver) = some (.object model a)) :
      Names env s (.assign (.var (.field id index) t) value) (.cell (.object a))
  | property {receiver value field t v s1 s2 model a} (hvalue : eval env value s = .ok v s1)
      (hreceiver : eval env receiver s1 = .ok (.object model a) s2) :
      Names env s (.assign (.property receiver field t) value) (.cell (.object a))
  | element {container key value kind t v u s1 s2 c} (hvalue : eval env value s = .ok v s1)
      (hcontainer : eval env container s1 = .ok u s2) (hcell : u.cell? = some c) :
      Names env s (.assign (.lookup container key kind t) value) (.cell c)
  | add {set value u s1 c} (hset : eval env set s = .ok u s1) (hcell : u.cell? = some c) :
      Names env s (.add set value) (.cell c)
  | push {list value u s1 c} (hlist : eval env list s = .ok u s1) (hcell : u.cell? = some c) :
      Names env s (.push list value) (.cell c)
  | pop {list u s1 c} (hlist : eval env list s = .ok u s1) (hcell : u.cell? = some c) :
      Names env s (.pop list) (.cell c)

/-- A state that has all that another one has, as it is. -/
structure State.Keeps (s s' : State) : Prop where
  cells : s.heap.Grows s'.heap
  constants : s'.constants = s.constants
  frames : s'.frames = s.frames

/-- A state that has all that another one has, as it is, but for one place. -/
inductive State.Changes (s s' : State) : Target → Prop where
  | binding {id f rest v} (hcells : s.heap.Grows s'.heap) (hconstants : s'.constants = s.constants)
      (hframes : s.frames = f :: rest)
      (hframes' : s'.frames = { f with locals := assocInsert id v f.locals } :: rest) :
      State.Changes s s' (.binding id)
  | argument {index f rest v} (hcells : s.heap.Grows s'.heap)
      (hconstants : s'.constants = s.constants) (hframes : s.frames = f :: rest)
      (hframes' : s'.frames = { f with arguments := f.arguments.set index v } :: rest) :
      State.Changes s s' (.argument index)
  | cell {c} (hcells : ∀ c' x, c' ≠ c → s.heap.get? c' = some x → s'.heap.get? c' = some x)
      (hconstants : s'.constants = s.constants) (hframes : s'.frames = s.frames) :
      State.Changes s s' (.cell c)

theorem State.Keeps.refl (s : State) : s.Keeps s :=
  ⟨.refl s.heap, rfl, rfl⟩

/-- What is not there yet was not there before. -/
theorem State.Keeps.fresh {s σ : State} (hs : s.Keeps σ) {c : Cell} (hc : σ.heap.get? c = none) :
    s.heap.get? c = none := by
  cases hx : s.heap.get? c with
  | none => rfl
  | some x =>
    rw [hs.cells c x hx] at hc
    cases hc

theorem keeps_additive (s : State) : Additive fun σ σ' => s.Keeps σ → s.Keeps σ' where
  refl _ hσ := hσ
  trans h1 h2 hσ := h2 (h1 hσ)
  alloc hf σ hσ :=
    ⟨hσ.cells.trans (Heap.Grows.accrues.allocation hf σ.heap), hσ.constants, hσ.frames⟩

/-! ## Ends of statements -/

/-- How a statement ends that began in `s`: it has changed a place, or it fails and has changed
nothing. -/
def Settles (s : State) (names : Target → Prop) {α : Type} : EStateM.Result Stop State α → Prop
  | .ok _ s' => ∃ target, names target ∧ s.Changes s' target
  | .error _ s' => s.Keeps s'

namespace Settles

variable {s σ : State} {names : Target → Prop} {α β : Type}

variable {x : Exec α} {c : Cell} {list : Value}

/-- What comes before the last step changes nothing. -/
theorem bind {f : α → Exec β} (hx : s.Keeps (finalState (x σ)))
    (hf : ∀ a σ', x σ = .ok a σ' → s.Keeps σ' → Settles s names (f a σ')) :
    Settles s names ((x >>= f) σ) := by
  show Settles s names (EStateM.bind x f σ)
  unfold EStateM.bind
  cases hr : x σ with
  | ok a σ' =>
    rw [hr] at hx
    exact hf a σ' hr hx
  | error stop σ' =>
    rw [hr] at hx
    exact hx

/-- Nothing comes after the last step. -/
theorem andThen (h : Settles s names (x σ)) (b : β) :
    Settles s names ((x >>= fun _ => pure b) σ) := by
  show Settles s names (EStateM.bind x _ σ)
  unfold EStateM.bind
  cases hr : x σ with
  | ok a σ' =>
    rw [hr] at h
    exact h
  | error stop σ' =>
    rw [hr] at h
    exact h

theorem change (hs : s.Keeps σ) {f : Heap → Heap} (hf : Write c f) (hc : names (.cell c)) :
    Settles s names (Exec.change f σ) :=
  ⟨.cell c, hc, .cell (fun c' x hne hx => (hf.get?_of_ne hne _).trans (hs.cells c' x hx))
    hs.constants hs.frames⟩

theorem unchanged (hs : s.Keeps σ) (hc : names (.cell c)) (a : α) :
    Settles s names ((pure a : Exec α) σ) :=
  ⟨.cell c, hc, .cell (fun c' x _ hx => hs.cells c' x hx) hs.constants hs.frames⟩

/-- A change of a piece of storage that was not there before keeps what was. -/
theorem keeps {r : EStateM.Result Stop State α} (h : Settles s (Eq (.cell c)) r)
    (hc : s.heap.get? c = none) : s.Keeps (finalState r) := by
  cases r with
  | error stop s' => exact h
  | ok a s' =>
    obtain ⟨_, rfl, hchanges⟩ := h
    cases hchanges with
    | cell hcells hconstants hframes =>
      refine ⟨fun c' x hx => hcells c' x (fun heq => ?_) hx, hconstants, hframes⟩
      rw [heq, hc] at hx
      cases hx

/-! ### Frames -/

theorem setLocal (hs : s.Keeps σ) {id : LocalId} (hid : names (.binding id)) (v : Value) :
    Settles s names (Exec.setLocal id v σ) := by
  unfold Exec.setLocal Exec.setFrame
  cases hframes : σ.frames with
  | nil => exact hs
  | cons f rest =>
    exact ⟨_, hid, .binding hs.cells hs.constants (hs.frames.symm.trans hframes) rfl⟩

theorem setArgument (hs : s.Keeps σ) {index : Nat} (hindex : names (.argument index)) (v : Value) :
    Settles s names (Exec.setFrame (fun f => { f with arguments := f.arguments.set index v }) σ) := by
  unfold Exec.setFrame
  cases hframes : σ.frames with
  | nil => exact hs
  | cons f rest =>
    exact ⟨_, hindex, .argument hs.cells hs.constants (hs.frames.symm.trans hframes) rfl⟩

/-! ### Fields and containers -/

theorem setField (hs : s.Keeps σ) {a : Address} (ha : names (.cell (.object a))) (index : Nat)
    (v : Value) : Settles s names (Exec.setField a index v σ) := by
  refine .bind hs fun fields σ1 _ hs1 => ?_
  split
  · exact .change hs1 (.setField a index v) ha
  · exact hs1

theorem pushTo (hs : s.Keeps σ) (hlist : ∀ c, list.cell? = some c → names (.cell c)) (v : Value) :
    Settles s names (pushTo list v σ) := by
  cases list with
  | list a => exact .change hs (.pushItem a v) (hlist _ rfl)
  | _ => exact hs

theorem popList (hs : s.Keeps σ) (hlist : ∀ c, list.cell? = some c → names (.cell c)) :
    Settles s names (Exec.popList list σ) := by
  cases list with
  | list a =>
    refine .bind hs fun last σ1 _ hs1 => ?_
    cases last with
    | none => exact hs1
    | some v => exact (Settles.change hs1 (.popItem a) (hlist _ rfl)).andThen v
  | _ => exact hs

end Settles

section Evaluation

variable {env : Env} (hno : env.program.NoOverrides)

include hno

/-- Without overrides, comparisons and hashes make no calls. -/
theorem compares_of_noOverrides (P : (α : Type) → Exec α → Prop) :
    env.Compares (fun α x _ => P α x) env where
  program := rfl
  equality hm he := by
    rw [(hno _ _ hm).1] at he
    cases he
  hashing hm hbody := by
    rw [(hno _ _ hm).2] at hbody
    cases hbody
  fuel := .inl rfl

theorem equal_keeps (s : State) (l r : Value) :
    Leads (fun σ σ' => s.Keeps σ → s.Keeps σ') Bool (env.equal l r) :=
  (keeps_additive s).searching.paired.equal (compares_of_noOverrides hno _) l r

namespace Settles

variable {s σ : State} {names : Target → Prop}

theorem addElement (hs : s.Keeps σ) {a : Address} (ha : names (.cell (.set a))) (v : Value) :
    Settles s names (addElement env a v σ) := by
  refine .bind hs fun items σ1 _ hs1 => ?_
  have hfind := (keeps_additive s).searching.position (equal_keeps hno s) items.toList v
  refine .bind (hfind σ1 hs1) fun slot σ2 _ hs2 => ?_
  cases slot with
  | none => exact .change hs2 (.pushElement a v) ha
  | some i => exact .unchanged hs2 ha ()

theorem putEntry (hs : s.Keeps σ) {a : Address} (ha : names (.cell (.map a))) (key v : Value) :
    Settles s names (putEntry env a key v σ) := by
  refine .bind hs fun entries σ1 _ hs1 => ?_
  have hfind := (keeps_additive s).searching.findKey (equal_keeps hno s) entries.toList key
  refine .bind (hfind σ1 hs1) fun slot σ2 _ hs2 => ?_
  cases slot with
  | none => exact .change hs2 (.pushEntry a key v) ha
  | some i => exact .change hs2 (.setEntry a i v) ha

theorem assignElement (hs : s.Keeps σ) {container : Value}
    (hcontainer : ∀ c, container.cell? = some c → names (.cell c)) (key v : Value) :
    Settles s names (assignElement env container key v σ) := by
  have hsearching := (keeps_additive s).searching
  cases container with
  | list a =>
    refine .bind (hsearching.ofExcept (asInt_plain key) σ hs) fun index σ1 _ hs1 => ?_
    refine .bind hs1 fun items σ2 _ hs2 => ?_
    refine .bind (hsearching.ofExcept (checkedIndex_plain _ _) σ2 hs2) fun slot σ3 _ hs3 => ?_
    exact .change hs3 (.setItem a slot v) (hcontainer _ rfl)
  | map a => exact .putEntry hno hs (hcontainer _ rfl) key v
  | _ => exact hs

end Settles

/-- Expressions without calls and pops leave alone what is there. The sets and maps that are written
out are filled, but they are new. -/
theorem eval_keeps (s : State) {e : Expr} (he : ∀ x : Expr, x.InExpr e → x.isEffect = false) :
    Leads (fun σ σ' => s.Keeps σ → s.Keeps σ') Value (eval env e) := by
  have hadditive := keeps_additive s
  have hsearching := hadditive.searching
  refine hsearching.paired.eval (compares_of_noOverrides hno _) hadditive.observing
    fun x hx hactive ih => ?_
  cases x with
  | set items item =>
    intro σ hσ
    have hnew := hσ.fresh (show σ.heap.get? (.set σ.heap.sets.size) = none by simp [Heap.get?])
    have hadd (v : Value) : Leads (fun σ σ' => s.Keeps σ → s.Keeps σ') Unit
        (addElement env σ.heap.sets.size v) :=
      fun σ' hσ' => (Settles.addElement hno hσ' rfl v).keeps hnew
    exact hsearching.bind (hsearching.evalElements hadd ih) (fun _ => hsearching.pure _) _
      (hadditive.alloc .set σ hσ)
  | map entries key value =>
    intro σ hσ
    have hnew := hσ.fresh (show σ.heap.get? (.map σ.heap.maps.size) = none by simp [Heap.get?])
    have hput (k v : Value) : Leads (fun σ σ' => s.Keeps σ → s.Keeps σ') Unit
        (putEntry env σ.heap.maps.size k v) :=
      fun σ' hσ' => (Settles.putEntry hno hσ' rfl k v).keeps hnew
    have hentries := hsearching.evalEntries hput fun x hx =>
      ⟨ih _ (Expr.mem_children_map hx key value).1, ih _ (Expr.mem_children_map hx key value).2⟩
    exact hsearching.bind hentries (fun _ => hsearching.pure _) _ (hadditive.alloc .map σ hσ)
  | var definition output => exact hadditive.reading.readDefinition env.program definition
  | call | pop => cases he _ hx
  | _ => cases hactive

/-! ## Statements -/

omit hno in
theorem receiver_eq_ok {σ σ' : State} {r : ModelId × Address} (h : Exec.receiver σ = .ok r σ') :
    σ.frames.head?.bind (·.receiver) = some (.object r.1 r.2) := by
  obtain ⟨f, σ1, hframe, h⟩ := Lowering.Step.bind_eq_ok.mp h
  rw [Exec.frame, Safe.get_bind] at hframe
  cases hframes : σ.frames with
  | nil =>
    rw [hframes] at hframe
    cases hframe
  | cons top rest =>
    rw [hframes] at hframe
    cases hframe
    show f.receiver = _
    cases hreceiver : f.receiver with
    | none =>
      rw [hreceiver] at h
      cases h
    | some v =>
      rw [hreceiver] at h
      cases v with
      | object model a =>
        cases h
        rfl
      | _ => cases h

omit hno in
theorem assignDefinition_settles {s σ : State} (hs : s.Keeps σ) (d : Definition) (t : Ty)
    (value : Expr) (v : Value) :
    Settles s (Names env s (.assign (.var d t) value)) (assignDefinition d v σ) := by
  have hreading := (keeps_additive s).reading
  cases d with
  | binding id => exact .setLocal hs .binding v
  | argument id index =>
    refine .bind (hreading.frame σ hs) fun f σ1 _ hs1 => ?_
    split
    · exact .setArgument hs1 .argument v
    · exact hs1
  | field id index =>
    refine .bind (hreading.receiver hreading.frame σ hs) fun r σ1 hr hs1 => ?_
    exact .setField hs1 (.field (hs.frames ▸ receiver_eq_ok hr)) index v
  | constant id => exact hs

/-- A simple statement settles in the place that it names. -/
theorem exec_settles (s : State) {t : Stmt} (ht : t.isSimple = true)
    (hoperands : ∀ x : Expr, x.InStmt t → x.isEffect = false) :
    Settles s (Names env s t) (exec env t s) := by
  have heval {e : Expr} (he : e ∈ t.operands) {σ : State} (hσ : s.Keeps σ) :
      s.Keeps (finalState (eval env e σ)) :=
    eval_keeps hno s (fun x hx => hoperands x (.operand he hx)) σ hσ
  have hinner {e c : Expr} (he : e ∈ t.operands) (hc : c ∈ e.children) {σ : State}
      (hσ : s.Keeps σ) : s.Keeps (finalState (eval env c σ)) :=
    eval_keeps hno s (fun x hx => hoperands x (.operand he (.deeper hc hx))) σ hσ
  have hs := State.Keeps.refl s
  cases t with
  | declare id value =>
    refine .bind (heval List.mem_cons_self hs) fun v s1 _ hs1 => ?_
    exact (Settles.setLocal hs1 .declare v).andThen _
  | assign place value =>
    have hplace : place ∈ (Stmt.assign place value).operands := List.mem_cons_self
    refine .bind (heval (List.mem_cons_of_mem _ List.mem_cons_self) hs)
      fun v s1 hv hs1 => .andThen ?_ _
    cases place with
    | var d output => exact assignDefinition_settles hs1 d output value v
    | property receiver field output =>
      refine .bind (hinner hplace List.mem_cons_self hs1) fun r s2 hr hs2 => ?_
      cases r with
      | object model a => exact .setField hs2 (.property hv hr) field.index v
      | _ => exact hs2
    | lookup container key kind output =>
      refine .bind (hinner hplace List.mem_cons_self hs1) fun c s2 hc hs2 => ?_
      refine .bind (hinner hplace (List.mem_cons_of_mem _ List.mem_cons_self) hs2)
        fun k s3 _ hs3 => ?_
      exact .assignElement hno hs3 (fun _ hcell => .element hv hc hcell) k v
    | _ => exact hs1
  | add set value =>
    refine .bind (heval List.mem_cons_self hs) fun a s1 ha hs1 => ?_
    refine .bind (heval (List.mem_cons_of_mem _ List.mem_cons_self) hs1)
      fun v s2 _ hs2 => .andThen ?_ _
    cases a with
    | set a => exact .addElement hno hs2 (.add ha rfl) v
    | _ => exact hs2
  | push list value =>
    refine .bind (heval List.mem_cons_self hs) fun a s1 ha hs1 => ?_
    refine .bind (heval (List.mem_cons_of_mem _ List.mem_cons_self) hs1) fun v s2 _ hs2 => ?_
    exact (Settles.pushTo hs2 (fun _ hcell => .push ha hcell) v).andThen _
  | pop list =>
    refine .bind (heval List.mem_cons_self hs) fun a s1 ha hs1 => ?_
    exact (Settles.popList hs1 fun _ hcell => .pop ha hcell).andThen _
  | _ => cases ht

end Evaluation

/-- In a program without overrides, a simple statement without calls and without pops that give a
value either fails and leaves every cell, every frame and every constant as it was, or succeeds and
leaves all that was there as it was, except for the one place that it names. -/
theorem simple_statement_writes_one_place {p : Program} (hno : p.NoOverrides) {env : Env}
    (henv : env.program = p) {t : Stmt} (ht : t.isSimple = true)
    (hoperands : ∀ x : Expr, x.InStmt t → x.isEffect = false) (s : State) :
    (∀ stop s', exec env t s = .error stop s' → s.Keeps s') ∧
    ∀ flow s', exec env t s = .ok flow s' → ∃ target, Names env s t target ∧ s.Changes s' target := by
  subst henv
  have hsettles := exec_settles hno s ht hoperands
  constructor
  · intro stop s' hrun
    rw [hrun] at hsettles
    exact hsettles
  · intro flow s' hrun
    rw [hrun] at hsettles
    exact hsettles

/-- The statement of `grow` that appends a node to the list it walks over. -/
def growPush : Stmt :=
  .push ringNodes (.property (ringNode 2) ⟨⟨0⟩, 0⟩ (.model ⟨0⟩))

theorem growPush_operands (x : Expr) (hx : x.InStmt growPush) : x.isEffect = false := by
  cases hx with
  | deeper ht _ => cases ht
  | operand he hx =>
    rcases List.mem_pair.mp he with rfl | rfl
    · cases hx with
      | here => rfl
      | deeper hc _ => cases hc
    · cases hx with
      | here => rfl
      | deeper hc hx =>
        cases List.mem_singleton.mp hc
        cases hx with
        | here => rfl
        | deeper hc _ => cases hc

/-- The list of `grow` and an item of it, in the storage of two lists. -/
def growState (item : Value) : State where
  heap := ringHeap
  frames := [{ locals := [(⟨1⟩, .list 0), (⟨2⟩, item)] }]

theorem growPush_writes_one_place : ringProgram.NoOverrides ∧ growPush.isSimple = true ∧
    (∀ x : Expr, x.InStmt growPush → x.isEffect = false) ∧
    (∃ stop s', exec (.ofFuel ringProgram 2) growPush (growState .null) = .error stop s' ∧
      (growState .null).Keeps s') ∧
    ∃ s', exec (.ofFuel ringProgram 2) growPush (growState (.object ⟨0⟩ 0)) = .ok .next s' ∧
      ∃ target, Names (.ofFuel ringProgram 2) (growState (.object ⟨0⟩ 0)) growPush target ∧
        (growState (.object ⟨0⟩ 0)).Changes s' target := by
  have hone := simple_statement_writes_one_place ringProgram_noOverrides
    (show (Env.ofFuel ringProgram 2).program = ringProgram from rfl)
    (show growPush.isSimple = true from rfl) growPush_operands
  refine ⟨ringProgram_noOverrides, rfl, growPush_operands, ?_, ?_⟩
  · exact ⟨_, _, rfl, (hone (growState .null)).1 _ _ rfl⟩
  · exact ⟨_, rfl, (hone (growState (.object ⟨0⟩ 0))).2 _ _ rfl⟩

end Scribe.Machine
