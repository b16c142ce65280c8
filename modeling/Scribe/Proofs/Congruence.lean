import Scribe.Proofs.Closure

/-!
# Two environments side by side

What the machine does with a piece of code depends on the environment in three ways: by the calls
that it makes, by how deep a comparison may go and by how often a loop may turn. If two environments
are related in these, then they are related in the evaluation of every expression and the execution
of every statement. This holds of every relation between computations that the steps of the machine
have with themselves and that sequences inherit (`Coupled`), and so of every property that the
steps have and sequences inherit.
-/

namespace Scribe.Machine

open Scribe.Core

variable (R : (α : Type) → Exec α → Exec α → Prop)

/-- A relation between computations that has every look into storage and every stop related with
itself, and that sequences inherit. -/
structure Paired : Prop where
  searching : Searching fun α act => R α act act
  bind {α β : Type} {x y : Exec α} {f g : α → Exec β} (h : R α x y) (hf : ∀ a, R β (f a) (g a)) :
    R β (x >>= f) (y >>= g)

/-- A relation between computations that has every step of the machine related with itself, and
that sequences inherit. -/
structure Coupled : Prop where
  closed : Closed fun α act => R α act act
  bind {α β : Type} {x y : Exec α} {f g : α → Exec β} (h : R α x y) (hf : ∀ a, R β (f a) (g a)) :
    R β (x >>= f) (y >>= g)

/-- What is limited to `n` steps is related with what is limited to `m`. -/
def Suffices (n m : Nat) : Prop :=
  n = m ∨ n ≤ m ∧ ∀ α y, R α (throw .exhausted) y

/-- Environments that are related in all that code can ask of them. -/
structure Env.Pairs (env env' : Env) : Prop where
  program : env'.program = env.program
  invoke (name : String) (body : Block) (frame : Frame) :
    R Value (env.invoke name body frame) (env'.invoke name body frame)
  fuel : Suffices R env.fuel env'.fuel

/-- Environments that are related in all that comparisons and hashes can ask of them. -/
structure Env.Compares (env env' : Env) : Prop where
  program : env'.program = env.program
  equality {id : ModelId} {m : Model} {e : Equality} (hm : env.program.getModel? id = some m)
    (he : m.equality = some e) (left right : Value) :
    R Value
      (env.invoke "equal" e.body { receiver := some left, locals := [(e.other, right)] })
      (env'.invoke "equal" e.body { receiver := some left, locals := [(e.other, right)] })
  hashing {id : ModelId} {m : Model} {body : Block} (hm : env.program.getModel? id = some m)
    (hbody : m.hashing = some body) (v : Value) :
    R Value (env.invoke "hash" body { receiver := some v })
      (env'.invoke "hash" body { receiver := some v })
  fuel : Suffices R env.fuel env'.fuel

theorem Env.Pairs.compares {R} {env env' : Env}
    (h : env.Pairs R env') : env.Compares R env' :=
  ⟨h.program, fun _ _ _ _ => h.invoke _ _ _, fun _ _ _ => h.invoke _ _ _, h.fuel⟩

section Limits

variable {R}

theorem Suffices.zero (h : Paired R) {m : Nat} (hm : Suffices R 0 m) {α : Type} {y : Nat → Exec α}
    (hy : y 0 = throw .exhausted) : R α (throw .exhausted) (y m) := by
  obtain rfl | ⟨_, htop⟩ := hm
  · rw [hy]
    exact h.searching.exhausted
  · exact htop α (y m)

theorem Suffices.succ {n m : Nat} (h : Suffices R (n + 1) m) : ∃ k, m = k + 1 ∧ Suffices R n k := by
  obtain rfl | ⟨hle, htop⟩ := h
  · exact ⟨n, rfl, .inl rfl⟩
  · obtain ⟨k, rfl⟩ : ∃ k, m = k + 1 := ⟨m - 1, by omega⟩
    exact ⟨k, rfl, .inr ⟨by omega, htop⟩⟩

end Limits

namespace Paired

variable {R} (h : Paired R)
include h

theorem truth {x y : Exec Value} (hxy : R Value x y) : R Bool (truth x) (truth y) :=
  h.bind hxy fun v => h.searching.ofExcept (asBool_plain v)

/-! ## Comparisons and hashes -/

section Search

variable {eq eq' : Value → Value → Exec Bool} (heq : ∀ l r, R Bool (eq l r) (eq' l r))
include heq

theorem positionFrom (value : Value) (index : Nat) (items : List Value) :
    R (Option Nat) (positionFrom eq value index items) (positionFrom eq' value index items) := by
  induction items generalizing index with
  | nil => exact h.searching.pure none
  | cons item rest ih =>
    refine h.bind (heq item value) fun found => ?_
    cases found with
    | true => exact h.searching.pure _
    | false => exact ih (index + 1)

theorem position (items : List Value) (value : Value) :
    R (Option Nat) (position eq items value) (position eq' items value) :=
  h.positionFrom heq value 0 items

theorem findKey (entries : List (Value × Value)) (key : Value) :
    R (Option Nat) (findKey eq entries key) (findKey eq' entries key) :=
  h.position heq _ key

theorem itemsEqual (as bs : List Value) :
    R Bool (itemsEqual eq as bs) (itemsEqual eq' as bs) := by
  induction as generalizing bs with
  | nil => exact h.searching.pure true
  | cons a as ih =>
    cases bs with
    | nil => exact h.searching.pure true
    | cons b bs =>
      refine h.bind (heq a b) fun same => ?_
      cases same with
      | true => exact ih bs
      | false => exact h.searching.pure false

theorem elementsFound (others items : List Value) :
    R Bool (elementsFound eq others items) (elementsFound eq' others items) := by
  induction items with
  | nil => exact h.searching.pure true
  | cons item rest ih =>
    refine h.bind (h.position heq others item) fun slot => ?_
    cases slot with
    | none => exact h.searching.pure false
    | some i => exact ih

theorem entriesFound (others entries : List (Value × Value)) :
    R Bool (entriesFound eq others entries) (entriesFound eq' others entries) := by
  induction entries with
  | nil => exact h.searching.pure true
  | cons entry rest ih =>
    refine h.bind (h.findKey heq others entry.1) fun slot => ?_
    cases slot with
    | none => exact h.searching.pure false
    | some i =>
      dsimp only
      cases others[i]? with
      | none => exact h.searching.pure false
      | some other =>
        refine h.bind (heq entry.2 _) fun same => ?_
        cases same with
        | true => exact ih
        | false => exact h.searching.pure false

end Search

section Hashes

variable {hash hash' : Value → Exec Int64} (hhash : ∀ v, R Int64 (hash v) (hash' v))
include hhash

theorem hashAll (items : List Value) :
    R (List Int64) (hashAll hash items) (hashAll hash' items) := by
  induction items with
  | nil => exact h.searching.pure []
  | cons v rest ih => exact h.bind (hhash v) fun x => h.bind ih fun xs => h.searching.pure _

theorem hashEntries (entries : List (Value × Value)) :
    R (List Int64) (hashEntries hash entries) (hashEntries hash' entries) := by
  induction entries with
  | nil => exact h.searching.pure []
  | cons entry rest ih =>
    refine h.bind (hhash entry.1) fun k => h.bind (hhash entry.2) fun v => ?_
    exact h.bind ih fun xs => h.searching.pure _

end Hashes

section Environment

variable {env env' : Env} (henv : env.Compares R env')
include henv

theorem valuesEqual {depth depth' : Nat} (hdepth : Suffices R depth depth') (left right : Value) :
    R Bool (valuesEqual env depth left right) (valuesEqual env' depth' left right) := by
  induction depth generalizing depth' left right with
  | zero => exact hdepth.zero h (y := fun m => Machine.valuesEqual env' m left right) rfl
  | succ depth ih =>
    obtain ⟨k, rfl, hk⟩ := hdepth.succ
    have heq := ih hk
    unfold Machine.valuesEqual
    split
    -- primitive values are compared without the environment
    iterate 6 exact h.searching.pure _
    -- containers are the same one, or differ in size, or are compared part by part
    · split
      · exact h.searching.pure true
      · refine h.bind (h.searching.look _) fun l => h.bind (h.searching.look _) fun r => ?_
        split
        · exact h.itemsEqual heq _ _
        · exact h.searching.pure false
    · split
      · exact h.searching.pure true
      · refine h.bind (h.searching.look _) fun l => h.bind (h.searching.look _) fun r => ?_
        split
        · exact h.elementsFound heq _ _
        · exact h.searching.pure false
    · split
      · exact h.searching.pure true
      · refine h.bind (h.searching.look _) fun l => h.bind (h.searching.look _) fun r => ?_
        split
        · exact h.entriesFound heq _ _
        · exact h.searching.pure false
    · next model a model' b =>
      rw [henv.program]
      cases hm : env.program.getModel? model with
      | none => exact h.searching.stop rfl (by rintro ⟨⟩)
      | some m =>
        simp only [Exec.ofOption, pure_bind]
        cases he : m.equality with
        | none => exact h.searching.pure _
        | some e =>
          dsimp only
          split
          · exact h.bind (henv.equality hm he _ _) fun v => h.searching.ofExcept (asBool_plain v)
          · exact h.searching.pure _
    · exact h.searching.pure false

theorem equal (left right : Value) : R Bool (env.equal left right) (env'.equal left right) :=
  h.valuesEqual henv henv.fuel left right

theorem hashValue {depth depth' : Nat} (hdepth : Suffices R depth depth') (v : Value) :
    R Int64 (hashValue env depth v) (hashValue env' depth' v) := by
  induction depth generalizing depth' v with
  | zero => exact hdepth.zero h (y := fun m => Machine.hashValue env' m v) rfl
  | succ depth ih =>
    obtain ⟨k, rfl, hk⟩ := hdepth.succ
    have hhash := ih hk
    cases v with
    | list a | set a =>
      refine h.bind (h.searching.look _) fun items => ?_
      exact h.bind (h.hashAll hhash _) fun xs => h.searching.pure _
    | map a =>
      refine h.bind (h.searching.look _) fun entries => ?_
      exact h.bind (h.hashEntries hhash _) fun xs => h.searching.pure _
    | object model a =>
      unfold Machine.hashValue
      dsimp only
      rw [henv.program]
      cases hm : env.program.getModel? model with
      | none => exact h.searching.stop rfl (by rintro ⟨⟩)
      | some m =>
        simp only [Exec.ofOption, pure_bind]
        cases hbody : m.hashing with
        | none => exact h.searching.pure _
        | some body =>
          exact h.bind (henv.hashing hm hbody _) fun v => h.searching.ofExcept (asInt_plain v)
    | _ => exact h.searching.pure _

theorem lookupValue (kind : LookupKind) (container key : Value) :
    R Value (lookupValue env kind container key) (lookupValue env' kind container key) := by
  unfold Machine.lookupValue
  split
  · refine h.bind (h.searching.ofExcept (asInt_plain _)) fun index => ?_
    refine h.bind (h.searching.look _) fun items => ?_
    refine h.bind (h.searching.ofExcept (checkedIndex_plain _ _)) fun slot => ?_
    split
    · exact h.searching.pure _
    · exact h.searching.fault rfl
  · refine h.bind (h.searching.ofExcept (asInt_plain _)) fun index => ?_
    refine h.bind (h.searching.ofExcept (checkedIndex_plain _ _)) fun slot => ?_
    split
    · exact h.searching.pure _
    · exact h.searching.fault rfl
  · refine h.bind (h.searching.look _) fun entries => ?_
    refine h.bind (h.findKey (h.equal henv) _ key) fun slot => ?_
    cases slot with
    | some i => exact h.bind (h.searching.ofOption _) fun entry => h.searching.pure _
    | none =>
      refine h.bind (h.searching.look _) fun text => ?_
      cases text with
      | some text => exact h.searching.fault rfl
      | none => exact h.searching.stop rfl (by rintro ⟨⟩)
  · exact h.searching.fault rfl
  · exact h.searching.fault rfl

theorem evalUnary (op : UnaryOp) (v : Value) :
    R Value (evalUnary env op v) (evalUnary env' op v) := by
  cases op with
  | hash => exact h.bind (h.hashValue henv henv.fuel v) fun x => h.searching.pure _
  | _ => exact h.searching.ofExcept (applyUnary_plain _ v)

theorem evalBinary (op : BinaryOp) (left right : Value) :
    R Value (evalBinary env op left right) (evalBinary env' op left right) := by
  cases op with
  | equals | notEqual => exact h.bind (h.equal henv left right) fun same => h.searching.pure _
  | _ => exact h.searching.ofExcept (applyBinary_plain _ left right)

theorem evalOperands (op : BinaryOp) {left right left' right' : Exec Value}
    (hleft : R Value left left') (hright : R Value right right') :
    R Value (evalOperands env op left right) (evalOperands env' op left' right') := by
  cases op with
  | and =>
    refine h.bind (h.truth hleft) fun decided => ?_
    cases decided with
    | true => exact h.bind (h.truth hright) fun answer => h.searching.pure _
    | false => exact h.searching.pure _
  | or =>
    refine h.bind (h.truth hleft) fun decided => ?_
    cases decided with
    | true => exact h.searching.pure _
    | false => exact h.bind (h.truth hright) fun answer => h.searching.pure _
  | _ => exact h.bind hleft fun l => h.bind hright fun r => h.evalBinary henv _ l r

omit henv in
theorem evalAll {es : List Expr} (hes : ∀ e ∈ es, R Value (eval env e) (eval env' e)) :
    R (List Value) (evalAll env es) (evalAll env' es) := by
  induction es with
  | nil => exact h.searching.pure []
  | cons e es ih =>
    obtain ⟨he, hes⟩ := List.forall_mem_cons.mp hes
    exact h.bind he fun v => h.bind (ih hes) fun vs => h.searching.pure _

omit henv in
theorem evalElements {a : Address} (hadd : ∀ v, R Unit (addElement env a v) (addElement env' a v))
    {es : List Expr} (hes : ∀ e ∈ es, R Value (eval env e) (eval env' e)) :
    R Unit (evalElements env a es) (evalElements env' a es) := by
  induction es with
  | nil => exact h.searching.pure ()
  | cons e es ih =>
    obtain ⟨he, hes⟩ := List.forall_mem_cons.mp hes
    exact h.bind he fun v => h.bind (hadd v) fun _ => ih hes

omit henv in
theorem evalEntries {a : Address} (hput : ∀ k v, R Unit (putEntry env a k v) (putEntry env' a k v))
    {entries : List (Expr × Expr)} (hentries : ∀ x ∈ entries,
      R Value (eval env x.1) (eval env' x.1) ∧ R Value (eval env x.2) (eval env' x.2)) :
    R Unit (evalEntries env a entries) (evalEntries env' a entries) := by
  induction entries with
  | nil => exact h.searching.pure ()
  | cons entry entries ih =>
    obtain ⟨⟨hkey, hvalue⟩, hentries⟩ := List.forall_mem_cons.mp hentries
    exact h.bind hkey fun k => h.bind hvalue fun v => h.bind (hput k v) fun _ => ih hentries

omit henv in
theorem evalReceiver {receiver : Option Expr}
    (hr : ∀ e ∈ receiver.toList, R Value (eval env e) (eval env' e)) :
    R (Option Value) (evalReceiver env receiver) (evalReceiver env' receiver) := by
  cases receiver with
  | none => exact h.searching.pure none
  | some e =>
    refine h.bind (hr e (Option.mem_toList.mpr rfl)) fun v => ?_
    cases v with
    | null => exact h.searching.fault rfl
    | _ => exact h.searching.pure _

/-- The evaluation of an expression is related if that of the active ones in it is. -/
theorem eval (hobserving : Observing fun α act => R α act act) {e : Expr}
    (hactive : ∀ x : Expr, x.InExpr e → x.isActive = true →
      (∀ c ∈ x.children, R Value (eval env c) (eval env' c)) → R Value (eval env x) (eval env' x)) :
    R Value (eval env e) (eval env' e) := by
  induction e using Expr.nodeInduction with
  | h e ih =>
    -- `ih` speaks of the children of `e`; each case takes its operands from the list of them
    have ih : ∀ c ∈ e.children, R Value (Machine.eval env c) (Machine.eval env' c) :=
      fun c hc => ih c hc fun x hx => hactive x (.deeper hc hx)
    cases e with
    | bool _ | int _ | rune _ | string _ | null _ => exact h.searching.pure _
    | set _ _ | map _ _ _ | call _ _ _ _ | pop _ _ | var _ _ => exact hactive _ .here rfl ih
    | emptyList _ => exact h.bind (hobserving.alloc (.list #[])) fun a => h.searching.pure _
    | emptySet _ => exact h.bind (hobserving.alloc .set) fun a => h.searching.pure _
    | emptyMap _ _ => exact h.bind (hobserving.alloc .map) fun a => h.searching.pure _
    | list items item =>
      refine h.bind (h.evalAll ih) fun vs => ?_
      exact h.bind (hobserving.alloc (.list vs.toArray)) fun a => h.searching.pure _
    | lookup container key kind output =>
      obtain ⟨hcontainer, hkey⟩ := List.forall_mem_cons.mp ih
      refine h.bind hcontainer fun c => h.bind (hkey _ List.mem_cons_self) fun k => ?_
      exact h.lookupValue henv kind c k
    | property receiver field output =>
      exact h.bind (ih _ List.mem_cons_self) fun v => h.searching.fieldOf v _
    | contains set value =>
      obtain ⟨hset, hvalue⟩ := List.forall_mem_cons.mp ih
      refine h.bind hset fun s => h.bind (h.searching.elementsOf s) fun items => ?_
      refine h.bind (hvalue _ List.mem_cons_self) fun v => ?_
      exact h.bind (h.position (h.equal henv) items v) fun slot => h.searching.pure _
    | new model =>
      unfold Machine.eval
      rw [henv.program]
      refine h.bind (h.searching.ofOption _) fun m => ?_
      exact h.bind (hobserving.alloc (.object m)) fun a => h.searching.pure _
    | length operand kind =>
      exact h.bind (ih _ List.mem_cons_self) fun v => h.searching.lengthOf v
    | unary op operand output =>
      exact h.bind (ih _ List.mem_cons_self) fun v => h.evalUnary henv op v
    | binary op left right output =>
      obtain ⟨hleft, hright⟩ := List.forall_mem_cons.mp ih
      exact h.evalOperands henv op hleft (hright _ List.mem_cons_self)
    | self model =>
      exact h.bind (h.searching.receiver hobserving.frame) fun r => h.searching.pure _

/-! ## Changes of containers -/

section Changes

variable (hchange : ∀ {c f}, Write c f → R Unit (Exec.change f) (Exec.change f))
include hchange

theorem addElement (a : Address) (v : Value) :
    R Unit (addElement env a v) (addElement env' a v) := by
  refine h.bind (h.searching.look _) fun items => ?_
  refine h.bind (h.position (h.equal henv) _ v) fun slot => ?_
  cases slot with
  | none => exact hchange (.pushElement a v)
  | some i => exact h.searching.pure ()

theorem addToSet (set v : Value) : R Unit (addToSet env set v) (addToSet env' set v) := by
  cases set with
  | set a => exact h.addElement henv hchange a v
  | _ => exact h.searching.fault rfl

theorem putEntry (a : Address) (key v : Value) :
    R Unit (putEntry env a key v) (putEntry env' a key v) := by
  refine h.bind (h.searching.look _) fun entries => ?_
  refine h.bind (h.findKey (h.equal henv) _ key) fun slot => ?_
  cases slot with
  | none => exact hchange (.pushEntry a key v)
  | some i => exact hchange (.setEntry a i v)

theorem assignElement (container key v : Value) :
    R Unit (assignElement env container key v) (assignElement env' container key v) := by
  cases container with
  | list a =>
    refine h.bind (h.searching.ofExcept (asInt_plain key)) fun index => ?_
    refine h.bind (h.searching.look _) fun items => ?_
    refine h.bind (h.searching.ofExcept (checkedIndex_plain _ _)) fun slot => ?_
    exact hchange (.setItem a slot v)
  | map a => exact h.putEntry henv hchange a key v
  | _ => exact h.searching.fault rfl

end Changes

end Environment

theorem callFunction {env env' : Env} (henv : env.Pairs R env') (id : FunctionId)
    (receiver : Option Value) (arguments : List Value) :
    R Value (callFunction env id receiver arguments) (callFunction env' id receiver arguments) := by
  unfold Machine.callFunction
  rw [henv.program]
  exact h.bind (h.searching.ofOption _) fun _ => henv.invoke _ _ _

end Paired

/-! ## Expressions -/

namespace Coupled

variable {R} (h : Coupled R)
include h

theorem paired : Paired R :=
  ⟨h.closed.toSearching, h.bind⟩

section Environment

variable {env env' : Env} (henv : env.Pairs R env')
include henv

/-- The evaluation of every expression is related. -/
theorem eval (e : Expr) : R Value (eval env e) (eval env' e) := by
  refine h.paired.eval henv.compares h.closed.toObserving fun x _ hx ih => ?_
  cases x with
  | set items item =>
    refine h.bind (h.closed.alloc .set) fun a => ?_
    have hadd := h.paired.addElement henv.compares h.closed.change a
    exact h.bind (h.paired.evalElements hadd ih) fun _ => h.closed.pure _
  | map entries key value =>
    refine h.bind (h.closed.alloc .map) fun a => ?_
    have hput := h.paired.putEntry henv.compares h.closed.change a
    refine h.bind (h.paired.evalEntries hput fun x hx => ?_) fun _ => h.closed.pure _
    have hmem := Expr.mem_children_map hx key value
    exact ⟨ih _ hmem.1, ih _ hmem.2⟩
  | call receiver arguments function returnType =>
    obtain ⟨hreceiver, harguments⟩ := List.forall_mem_append.mp ih
    refine h.bind (h.paired.evalReceiver hreceiver) fun r => ?_
    exact h.bind (h.paired.evalAll harguments) fun vs => h.paired.callFunction henv function r vs
  | pop list item =>
    exact h.bind (ih _ List.mem_cons_self) fun v => h.closed.popList h.closed.change v
  | var definition output =>
    unfold Machine.eval
    rw [henv.program]
    exact h.closed.fuelFree.readDefinition _ definition
  | _ => cases hx

/-! ## Statements -/

theorem assign (place : Expr) (v : Value) :
    R Unit (assign env place v) (assign env' place v) := by
  cases place with
  | var definition output => exact h.closed.fuelFree.assignDefinition definition v
  | property receiver field output =>
    refine h.bind (h.eval henv receiver) fun r => ?_
    cases r with
    | object model a => exact h.closed.setField h.closed.change _ _ _
    | _ => exact h.closed.fault rfl
  | lookup container key kind output =>
    refine h.bind (h.eval henv container) fun c => h.bind (h.eval henv key) fun k => ?_
    exact h.paired.assignElement henv.compares h.closed.change c k v
  | _ => exact h.closed.invalid rfl

omit henv in
theorem repeatWhile {condition condition' : Exec Bool} {body body' : Exec Flow}
    {after after' : Exec Unit} (hcondition : R Bool condition condition')
    (hbody : R Flow body body') (hafter : R Unit after after') {fuel fuel' : Nat}
    (hfuel : Suffices R fuel fuel') :
    R Flow (repeatWhile condition body after fuel) (repeatWhile condition' body' after' fuel') := by
  induction fuel generalizing fuel' with
  | zero => exact hfuel.zero h.paired (y := Machine.repeatWhile condition' body' after') rfl
  | succ fuel ih =>
    obtain ⟨k, rfl, hk⟩ := hfuel.succ
    refine h.bind hcondition fun holds => ?_
    cases holds with
    | false => exact h.closed.pure _
    | true =>
      refine h.bind hbody fun flow => ?_
      cases flow with
      | brk | ret _ => exact h.closed.pure _
      | next | cont => exact h.bind hafter fun _ => ih hk

omit henv in
theorem repeatFor {bind : Value → Exec Unit} {body body' : Exec Flow}
    (hbind : ∀ v, R Unit (bind v) (bind v)) (hbody : R Flow body body') (items : List Value) :
    R Flow (repeatFor bind body items) (repeatFor bind body' items) := by
  induction items with
  | nil => exact h.closed.pure _
  | cons v rest ih =>
    refine h.bind (hbind v) fun _ => h.bind hbody fun flow => ?_
    cases flow with
    | brk | ret _ => exact h.closed.pure _
    | next | cont => exact ih

end Environment

mutual

/-- The execution of every statement is related. -/
theorem exec {env env' : Env} (henv : env.Pairs R env') (s : Stmt) :
    R Flow (exec env s) (exec env' s) := by
  cases s with
  | declare id value =>
    refine h.bind (h.eval henv value) fun v => ?_
    exact h.bind (h.closed.setFrame _) fun _ => h.closed.pure _
  | assign place value =>
    refine h.bind (h.eval henv value) fun v => ?_
    exact h.bind (h.assign henv place v) fun _ => h.closed.pure _
  | conditional arms otherwise => exact execArms henv arms (execOtherwise henv otherwise)
  | forLoop start condition after body =>
    refine h.bind (execPart henv start) fun _ => ?_
    exact h.repeatWhile (h.paired.truth (h.eval henv condition)) (execBlock henv body)
      (execPart henv after) henv.fuel
  | forEach item iterable kind itemType body =>
    refine h.bind (h.eval henv iterable) fun v => ?_
    refine h.bind (h.closed.iterationItems v) fun items => ?_
    exact h.repeatFor (fun v => h.closed.setFrame _) (execBlock henv body) items
  | ret value callable =>
    cases value with
    | none => exact h.closed.pure _
    | some value => exact h.bind (h.eval henv value) fun v => h.closed.pure _
  | brk | cont => exact h.closed.pure _
  | add set value =>
    refine h.bind (h.eval henv set) fun a => h.bind (h.eval henv value) fun v => ?_
    exact h.bind (h.paired.addToSet henv.compares h.closed.change a v) fun _ => h.closed.pure _
  | push list value =>
    refine h.bind (h.eval henv list) fun a => h.bind (h.eval henv value) fun v => ?_
    exact h.bind (h.closed.pushTo h.closed.change a v) fun _ => h.closed.pure _
  | pop list =>
    refine h.bind (h.eval henv list) fun a => ?_
    exact h.bind (h.closed.popList h.closed.change a) fun _ => h.closed.pure _
  | call receiver arguments function returnType =>
    refine h.bind (h.paired.evalReceiver fun e _ => h.eval henv e) fun r => ?_
    refine h.bind (h.paired.evalAll fun e _ => h.eval henv e) fun vs => ?_
    exact h.bind (h.paired.callFunction henv function r vs) fun _ => h.closed.pure _

theorem execBlock {env env' : Env} (henv : env.Pairs R env') (block : List Stmt) :
    R Flow (execBlock env block) (execBlock env' block) := by
  cases block with
  | nil => exact h.closed.pure _
  | cons s rest =>
    refine h.bind (exec henv s) fun flow => ?_
    cases flow with
    | next => exact execBlock henv rest
    | brk | cont | ret _ => exact h.closed.pure _

theorem execPart {env env' : Env} (henv : env.Pairs R env') (part : Option Stmt) :
    R Unit (execPart env part) (execPart env' part) := by
  cases part with
  | none => exact h.closed.pure ()
  | some s => exact h.bind (exec henv s) fun _ => h.closed.pure ()

theorem execArms {env env' : Env} (henv : env.Pairs R env') (arms : List (Expr × List Stmt))
    {otherwise otherwise' : Exec Flow} (hotherwise : R Flow otherwise otherwise') :
    R Flow (execArms env arms otherwise) (execArms env' arms otherwise') := by
  cases arms with
  | nil => exact hotherwise
  | cons arm rest =>
    obtain ⟨condition, block⟩ := arm
    refine h.bind (h.paired.truth (h.eval henv condition)) fun holds => ?_
    cases holds with
    | true => exact execBlock henv block
    | false => exact execArms henv rest hotherwise

theorem execOtherwise {env env' : Env} (henv : env.Pairs R env')
    (otherwise : Option (List Stmt)) :
    R Flow (execOtherwise env otherwise) (execOtherwise env' otherwise) := by
  cases otherwise with
  | none => exact h.closed.pure _
  | some block => exact execBlock henv block

end

/-! ## Calls -/

/-- Calls of any depth are related if a new frame keeps the relation, by induction on how deep they
may go. -/
theorem calls (hframe : ∀ f {x y}, R Flow x y → R Flow (Exec.withFrame f x) (Exec.withFrame f y))
    (p : Program) {fuel fuel' : Nat} (hfuel : Suffices R fuel fuel') :
    (Env.ofFuel p fuel).Pairs R (Env.ofFuel p fuel') := by
  induction fuel generalizing fuel' with
  | zero =>
    refine ⟨rfl, fun name body frame => ?_, hfuel⟩
    exact hfuel.zero h.paired (y := fun n => Machine.invoke p n name body frame) rfl
  | succ fuel ih =>
    refine ⟨rfl, fun name body frame => ?_, hfuel⟩
    obtain ⟨k, rfl, hk⟩ := hfuel.succ
    exact h.bind (hframe frame (h.execBlock (ih hk) body)) fun flow => h.closed.flowResult name flow

end Coupled

/-! ## One environment

A property of computations is a relation that asks nothing of the second one. -/

section Properties

variable {P : (α : Type) → Exec α → Prop} {env : Env}

theorem Env.Calls.pairs (henv : env.Calls P) : env.Pairs (fun α x _ => P α x) env :=
  ⟨rfl, henv, .inl rfl⟩

namespace Searching

variable (h : Searching P)
include h

theorem paired : Paired fun α x _ => P α x :=
  ⟨h, h.bind⟩

variable {eq : Value → Value → Exec Bool} {es : List Expr} {a : Address}

theorem position (heq : ∀ l r, P Bool (eq l r)) (items : List Value) (value : Value) :
    P (Option Nat) (position eq items value) :=
  @Paired.position _ h.paired eq eq heq items value

theorem findKey (heq : ∀ l r, P Bool (eq l r)) (entries : List (Value × Value)) (key : Value) :
    P (Option Nat) (findKey eq entries key) :=
  h.position heq _ key

theorem evalAll (hes : ∀ e ∈ es, P Value (eval env e)) : P (List Value) (evalAll env es) :=
  @Paired.evalAll _ h.paired env env es hes

theorem evalReceiver {receiver : Option Expr}
    (hr : ∀ e ∈ receiver.toList, P Value (eval env e)) :
    P (Option Value) (evalReceiver env receiver) :=
  @Paired.evalReceiver _ h.paired env env receiver hr

theorem evalElements (hadd : ∀ v, P Unit (addElement env a v))
    (hes : ∀ e ∈ es, P Value (eval env e)) : P Unit (evalElements env a es) :=
  @Paired.evalElements _ h.paired env env a hadd es hes

theorem evalEntries (hput : ∀ k v, P Unit (putEntry env a k v)) {entries : List (Expr × Expr)}
    (hentries : ∀ x ∈ entries, P Value (eval env x.1) ∧ P Value (eval env x.2)) :
    P Unit (evalEntries env a entries) :=
  @Paired.evalEntries _ h.paired env env a hput entries hentries

theorem valuesEqual (henv : env.Calls P) (depth : Nat) (left right : Value) :
    P Bool (valuesEqual env depth left right) :=
  h.paired.valuesEqual henv.pairs.compares (.inl rfl) left right

theorem hashValue (henv : env.Calls P) (depth : Nat) (v : Value) :
    P Int64 (hashValue env depth v) :=
  h.paired.hashValue henv.pairs.compares (.inl rfl) v

theorem callFunction (henv : env.Calls P) (id : FunctionId) (receiver : Option Value)
    (arguments : List Value) : P Value (callFunction env id receiver arguments) :=
  h.paired.callFunction henv.pairs id receiver arguments

end Searching

namespace Closed

variable (h : Closed P)
include h

theorem coupled : Coupled fun α x _ => P α x :=
  ⟨h, h.bind⟩

/-- The evaluation of every expression has the property. -/
theorem eval (henv : env.Calls P) (e : Expr) : P Value (eval env e) :=
  h.coupled.eval henv.pairs e

/-- The execution of every block has the property. -/
theorem execBlock (henv : env.Calls P) (block : List Stmt) : P Flow (execBlock env block) :=
  h.coupled.execBlock henv.pairs block

/-- Calls of any depth have the property if a new frame keeps it. -/
theorem calls (hframe : ∀ f {act}, P Flow act → P Flow (Exec.withFrame f act))
    (p : Program) (fuel : Nat) : (Env.ofFuel p fuel).Calls P :=
  (h.coupled.calls (fun f _ _ hact => hframe f hact) p (.inl rfl)).invoke

end Closed

end Properties

end Scribe.Machine
