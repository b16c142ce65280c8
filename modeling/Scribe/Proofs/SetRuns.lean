import Scribe.Machine.Run
import Scribe.Proofs.SetLocals

/-!
# Runs read the locals that are set

Expressions and statements that are `Assigned` read locals that are set, and late ones. The late
locals of a program are excused, so each body of an `Assigned` program `Binds`, by induction on how
deep calls may go (`ofFuel_callsBind`). A run therefore stops at an unset local only if the last
part of a `for` declares it (`run_binds`).
-/

namespace Scribe.Machine

open Scribe.Core
open Scribe.Lowering.Step (bind_of_ok)

/-! ## Expressions -/

/-- The names of some locals have `X`. -/
def Excused (X : String → Prop) (p : Program) (ids : List LocalId) : Prop :=
  ∀ id ∈ ids, ∀ l, p.getLocal? id = some l → X l.name

section Expressions

variable {X : String → Prop} {ids late : List LocalId} {env : Env}

/-- A local is read where it is set, or its name is excused. -/
theorem readLocal_binds {p : Program} {id : LocalId} (hid : id ∈ ids ++ late)
    (hlate : Excused X p late) : Binds X ids (readDefinition p (.binding id)) ids := by
  intro σ hσ
  cases hframes : σ.frames with
  | nil =>
    have hrun : readDefinition p (.binding id) σ =
        .error (.fault (.invalidOperation .noActiveFrame)) σ := by
      show EStateM.bind Exec.frame _ σ = _
      rw [EStateM.bind, Exec.frame, Safe.get_bind, hframes]
      rfl
    rw [hrun]
    rintro name ⟨⟩
  | cons f rest =>
    have hframe : Exec.frame σ = .ok f σ := by
      rw [Exec.frame, Safe.get_bind, hframes]
      rfl
    rw [readDefinition, bind_of_ok hframe, ← hframes]
    cases hv : f.locals.lookup id with
    | some v => exact ⟨hσ, rfl⟩
    | none =>
      -- a local without a value is not among those that are set
      have hmem : id ∈ late := by
        rcases List.mem_append.mp hid with hid | hid
        · obtain ⟨v, hv'⟩ := hσ.cons hframes id hid
          rw [hv] at hv'
          cases hv'
        · exact hid
      cases hl : p.getLocal? id with
      | none => rintro name ⟨⟩
      | some l =>
        rintro name ⟨⟩
        exact hlate id hmem l hl

theorem readDefinition_binds {p : Program} {d : Definition}
    (hd : ∀ id, d = .binding id → id ∈ ids ++ late) (hlate : Excused X p late) :
    Binds X ids (readDefinition p d) ids := by
  have hlooking := (Binds.observing X ids).toLooking
  cases d with
  | constant id =>
    refine .bind .get fun σ => ?_
    split
    · exact .pure
    · exact .ofOption_bind fun c _ => .invalid rfl
  | argument function index =>
    refine .bind .frame fun f => ?_
    split
    · exact .pure
    · exact .invalid rfl
  | field model index => exact .bind (hlooking.receiver .frame) fun r => hlooking.getField _ _
  | binding id => exact readLocal_binds (hd id rfl) hlate

theorem truth_binds {act : Exec Value} (h : Binds X ids act ids) : Binds X ids (truth act) ids :=
  .bind h fun v => .ofExcept (asBool_plain v)

/-- Evaluation sets no local, and reads those that are set or excused. -/
theorem eval_binds (henv : CallsBind X env) (hlate : Excused X env.program late) (e : Expr)
    (he : e.ReadsOnly (ids ++ late)) : Binds X ids (eval env e) ids := by
  have hobserving := Binds.observing X ids
  have hpaired := hobserving.paired
  have hcompares := henv.compares ids
  refine hpaired.eval hcompares hobserving fun x hx hactive ih => ?_
  cases x with
  | set items item =>
    refine .bind .alloc fun a => .bind ?_ fun _ => .pure
    exact hobserving.evalElements (hpaired.addElement hcompares (fun _ => .change) a) ih
  | map entries key value =>
    refine .bind .alloc fun a => .bind ?_ fun _ => .pure
    refine hobserving.evalEntries (hpaired.putEntry hcompares (fun _ => .change) a) fun x hx => ?_
    have hmem := Expr.mem_children_map hx key value
    exact ⟨ih _ hmem.1, ih _ hmem.2⟩
  | call receiver arguments function returnType =>
    obtain ⟨hreceiver, harguments⟩ := List.forall_mem_append.mp ih
    refine .bind (hobserving.evalReceiver hreceiver) fun r => ?_
    exact .bind (hobserving.evalAll harguments) fun vs => callFunction_binds henv function r vs
  | pop list item =>
    exact .bind (ih _ List.mem_cons_self) fun v => hobserving.popList (fun _ => .change) v
  | var definition output =>
    refine readDefinition_binds ?_ hlate
    rintro id rfl
    exact he.of_inExpr hx id output rfl
  | _ => cases hactive

end Expressions

/-! ## Statements -/

section Statements

variable {X : String → Prop} {ids late : List LocalId} {env : Env}

theorem assignDefinition_binds (d : Definition) (v : Value) :
    Binds X ids (assignDefinition d v) ids := by
  have hlooking := (Binds.observing X ids).toLooking
  cases d with
  | binding id => exact (Binds.setLocal id v).weaken (List.subset_append_left _ _)
  | argument function index =>
    refine .bind .frame fun f => .ite (.setFrame fun f hf => hf) (.invalid rfl)
  | field model index =>
    exact .bind (hlooking.receiver .frame) fun r => hlooking.setField (fun _ => .change) _ _ _
  | constant id => exact .invalid rfl

theorem assign_binds (henv : CallsBind X env) (hlate : Excused X env.program late) (place : Expr)
    (hplace : place.ReadsOnly (ids ++ late)) (v : Value) :
    Binds X ids (assign env place v) ids := by
  have hobserving := Binds.observing X ids
  have hchildren : ∀ c ∈ place.children, Binds X ids (eval env c) ids :=
    fun c hc => eval_binds henv hlate c (hplace.inner hc)
  cases place with
  | var definition output => exact assignDefinition_binds definition v
  | property receiver field output =>
    refine .bind (hchildren _ List.mem_cons_self) fun r => ?_
    cases r with
    | object model a => exact hobserving.setField (fun _ => .change) _ _ _
    | _ => exact .fault rfl
  | lookup container key kind output =>
    obtain ⟨hcontainer, hkey⟩ := List.forall_mem_cons.mp hchildren
    refine .bind hcontainer fun c => .bind (hkey _ List.mem_cons_self) fun k => ?_
    exact hobserving.paired.assignElement (henv.compares ids) (fun _ => .change) c k v
  | _ => exact .invalid rfl

/-- A loop leaves set what was set before its first turn. -/
theorem repeatWhile_binds {condition : Exec Bool} {body : Exec Flow} {after : Exec Unit}
    (hcondition : Binds X ids condition ids) (hbody : Binds X ids body ids)
    (hafter : Binds X ids after ids) (fuel : Nat) :
    Binds X ids (repeatWhile condition body after fuel) ids := by
  induction fuel with
  | zero => exact .throw rfl
  | succ fuel ih =>
    refine .bind hcondition fun holds => .ite (.bind hbody fun flow => ?_) .pure
    cases flow with
    | brk | ret _ => exact .pure
    | next | cont => exact .bind hafter fun _ => ih

theorem repeatFor_binds {bind : Value → Exec Unit} {body : Exec Flow} {item : LocalId}
    (hbind : ∀ v, Binds X ids (bind v) (ids ++ [item]))
    (hbody : Binds X (ids ++ [item]) body (ids ++ [item])) (items : List Value) :
    Binds X ids (repeatFor bind body items) ids := by
  have hsub : ids ⊆ ids ++ [item] := List.subset_append_left _ _
  induction items with
  | nil => exact .pure
  | cons v rest ih =>
    refine .bind (hbind v) fun _ => .bind (hbody.weaken hsub) fun flow => ?_
    cases flow with
    | brk | ret _ => exact .pure
    | next | cont => exact ih

theorem Excused.append {p : Program} {ids ids' : List LocalId} (h : Excused X p ids)
    (h' : Excused X p ids') : Excused X p (ids ++ ids') :=
  List.forall_mem_append.mpr ⟨h, h'⟩

mutual

/-- A statement sets what it declares and leaves set what was set before. -/
theorem exec_binds (henv : CallsBind X env) (s : Stmt) {ids late : List LocalId}
    (hs : s.Assigned ids late) (hlate : Excused X env.program late)
    (hbinders : Excused X env.program s.lateBinders) :
    Binds X ids (exec env s) (ids ++ declared s) := by
  have hnone {act : Exec Flow} (h : Binds X ids act ids) : Binds X ids act (ids ++ []) := by
    rw [List.append_nil]
    exact h
  have hobserving := Binds.observing X ids
  cases s with
  | declare id value =>
    have hvalue := eval_binds henv hlate value (List.forall_mem_singleton.mp hs)
    exact .bind hvalue fun v => .bind (.setLocal id v) fun _ => .pure
  | assign place value =>
    obtain ⟨hplace, hvalue⟩ := List.forall_mem_cons.mp hs
    refine hnone (.bind (eval_binds henv hlate value (List.forall_mem_singleton.mp hvalue)) ?_)
    exact fun v => .bind (assign_binds henv hlate place hplace v) fun _ => .pure
  | conditional arms otherwise =>
    obtain ⟨harms, hotherwise⟩ := List.forall_mem_append.mp hbinders
    refine hnone (execArms_binds henv arms hs.1 hlate harms ?_)
    exact execOtherwise_binds henv otherwise hs.2 hlate hotherwise
  | forLoop start condition after body =>
    obtain ⟨hstart, hcondition, hafter, hbody⟩ := hs
    obtain ⟨hbinders, hbodyLate⟩ := List.forall_mem_append.mp hbinders
    obtain ⟨hbinders, hafterDeclared⟩ := List.forall_mem_append.mp hbinders
    obtain ⟨hstartLate, hafterLate⟩ := List.forall_mem_append.mp hbinders
    refine hnone (.bind (execPart_binds henv start hstart hlate hstartLate) fun _ => ?_)
    have holds := truth_binds (eval_binds henv hlate condition hcondition)
    refine (repeatWhile_binds holds ?_ ?_ env.fuel).weaken (List.subset_append_left _ _)
    · -- the body may read what the last part declares, which is excused
      exact execBlock_binds henv body hbody (hlate.append hafterDeclared) hbodyLate
    · exact (execPart_binds henv after hafter hlate hafterLate).weaken
        (List.subset_append_left _ _)
  | forEach item iterable kind itemType body =>
    refine hnone (.bind (eval_binds henv hlate iterable hs.1) fun v => ?_)
    refine .bind (hobserving.iterationItems v) fun items => ?_
    exact repeatFor_binds (Binds.setLocal item) (execBlock_binds henv body hs.2 hlate hbinders) items
  | ret value callable =>
    cases value with
    | none => exact hnone .pure
    | some value =>
      exact hnone (.bind (eval_binds henv hlate value (List.forall_mem_singleton.mp hs))
        fun v => .pure)
  | brk | cont => exact hnone .pure
  | add set value =>
    obtain ⟨hset, hvalue⟩ := List.forall_mem_cons.mp hs
    refine hnone (.bind (eval_binds henv hlate set hset) fun a => ?_)
    refine .bind (eval_binds henv hlate value (List.forall_mem_singleton.mp hvalue)) fun v => ?_
    have hadd := hobserving.paired.addToSet (henv.compares ids) (fun _ => .change) a v
    exact .bind hadd fun _ => .pure
  | push list value =>
    obtain ⟨hlist, hvalue⟩ := List.forall_mem_cons.mp hs
    refine hnone (.bind (eval_binds henv hlate list hlist) fun a => ?_)
    refine .bind (eval_binds henv hlate value (List.forall_mem_singleton.mp hvalue)) fun v => ?_
    exact .bind (hobserving.pushTo (fun _ => .change) a v) fun _ => .pure
  | pop list =>
    refine hnone (.bind (eval_binds henv hlate list (List.forall_mem_singleton.mp hs)) fun a => ?_)
    exact .bind (hobserving.popList (fun _ => .change) a) fun _ => .pure
  | call receiver arguments function returnType =>
    have hoperands : ∀ e ∈ receiver.toList ++ arguments, Binds X ids (eval env e) ids :=
      fun e he => eval_binds henv hlate e (hs e he)
    obtain ⟨hreceiver, harguments⟩ := List.forall_mem_append.mp hoperands
    refine hnone (.bind (hobserving.evalReceiver hreceiver) fun r => ?_)
    refine .bind (hobserving.evalAll harguments) fun vs => ?_
    exact .bind (callFunction_binds henv function r vs) fun _ => .pure

theorem execBlock_binds (henv : CallsBind X env) (block : List Stmt) {ids late : List LocalId}
    (hblock : blockAssigned ids late block) (hlate : Excused X env.program late)
    (hbinders : Excused X env.program (blockLate block)) :
    Binds X ids (execBlock env block) ids := by
  cases block with
  | nil => exact .pure
  | cons s rest =>
    obtain ⟨hfirst, hrest⟩ := List.forall_mem_append.mp hbinders
    have hsub : ids ⊆ ids ++ declared s := List.subset_append_left _ _
    refine .bind (exec_binds henv s hblock.1 hlate hfirst) fun flow => ?_
    cases flow with
    | next => exact (execBlock_binds henv rest hblock.2 hlate hrest).weaken hsub
    | brk | cont | ret _ => exact Binds.pure.weaken hsub

theorem execPart_binds (henv : CallsBind X env) (part : Option Stmt) {ids late : List LocalId}
    (hpart : partAssigned ids late part) (hlate : Excused X env.program late)
    (hbinders : Excused X env.program (partLate part)) :
    Binds X ids (execPart env part) (ids ++ part.toList.flatMap declared) := by
  cases part with
  | none =>
    rw [Option.toList_none, List.flatMap_nil, List.append_nil]
    exact .pure
  | some s =>
    rw [Option.toList_some, List.flatMap_singleton]
    exact .bind (exec_binds henv s hpart hlate hbinders) fun _ => .pure

theorem execArms_binds (henv : CallsBind X env) (arms : List (Expr × List Stmt))
    {ids late : List LocalId} (harms : armsAssigned ids late arms)
    (hlate : Excused X env.program late) (hbinders : Excused X env.program (armsLate arms))
    {otherwise : Exec Flow} (hotherwise : Binds X ids otherwise ids) :
    Binds X ids (execArms env arms otherwise) ids := by
  cases arms with
  | nil => exact hotherwise
  | cons arm rest =>
    obtain ⟨condition, block⟩ := arm
    obtain ⟨hcondition, hblock, hrest⟩ := harms
    obtain ⟨hblockLate, hrestLate⟩ := List.forall_mem_append.mp hbinders
    refine .bind (truth_binds (eval_binds henv hlate condition hcondition)) fun holds => ?_
    exact .ite (execBlock_binds henv block hblock hlate hblockLate)
      (execArms_binds henv rest hrest hlate hrestLate hotherwise)

theorem execOtherwise_binds (henv : CallsBind X env) (otherwise : Option (List Stmt))
    {ids late : List LocalId} (ho : otherwiseAssigned ids late otherwise)
    (hlate : Excused X env.program late)
    (hbinders : Excused X env.program (otherwiseLate otherwise)) :
    Binds X ids (execOtherwise env otherwise) ids := by
  cases otherwise with
  | none => exact .pure
  | some block => exact execBlock_binds henv block ho hlate hbinders

end

end Statements

/-! ## Runs -/

section Runs

variable {X : String → Prop} {p : Program}

/-- Calls of any depth, by induction on how deep they may go. -/
theorem ofFuel_callsBind (hp : p.Assigned) (hlate : Excused X p p.lateLocals) (fuel : Nat) :
    CallsBind X (.ofFuel p fuel) := by
  induction fuel with
  | zero => exact fun _ _ _ _ _ => .throw rfl
  | succ fuel ih =>
    intro callable body hbody f hf name ids
    refine .bind (.withFrame hf (execBlock_binds ih body (hp.bodies hbody) ?_ ?_)) ?_
    · exact List.forall_mem_nil _
    · exact fun id hid => hlate id (p.blockLate_subset hbody hid)
    · exact (Binds.observing X ids).flowResult name

theorem initFrom_binds {env : Env} (henv : CallsBind X env) {constants : List Constant}
    (h : ∀ c ∈ constants, c.value.ReadsOnly []) (index : Nat) :
    Binds X [] (initFrom env index constants) [] := by
  induction constants generalizing index with
  | nil => exact .pure
  | cons c rest ih =>
    obtain ⟨hc, hrest⟩ := List.forall_mem_cons.mp h
    have hvalue : Binds X [] (eval env c.value) [] :=
      @eval_binds X [] [] env henv (List.forall_mem_nil _) c.value hc
    refine .bind (.bind hvalue fun v => ?_) fun _ => ih hrest (index + 1)
    exact fun σ hσ => ⟨hσ, rfl⟩

/-- Constants have a frame of their own and read no locals. -/
theorem initConstants_binds {env : Env} (henv : CallsBind X env) (hp : env.program.Assigned) :
    Binds X [] (initConstants env) [] := by
  have hall : Binds X [] (initFrom env 0 env.program.constants.toList) [] := by
    refine initFrom_binds henv (fun c hc => ?_) 0
    obtain ⟨i, hi⟩ := List.getElem?_of_mem hc
    have hget : env.program.getConstant? ⟨i⟩ = some c := by
      rw [Program.getConstant?, ← Array.getElem?_toList]
      exact hi
    exact hp.constants hget
  exact .bind .get fun σ => .ite .pure (.withFrame (List.forall_mem_nil _) hall)

/-- A run stops at an unset local only if the last part of a `for` declares it. -/
theorem run_binds (hp : p.Assigned) (hlate : Excused X p p.lateLocals) (fuel : Nat) (entry : String)
    (arguments : List Value) : Binds X [] (run p fuel entry arguments) [] := by
  have henv : CallsBind X (.ofFuel p fuel) := ofFuel_callsBind hp hlate fuel
  unfold run
  cases p.function? entry with
  | none => exact .fault rfl
  | some id =>
    refine .ofOption_bind fun f _ => .ite (.bind .get fun σ => ?_) (.fault rfl)
    refine .bind (.ofExcept (checkArguments_plain _ _ _ _)) fun _ => ?_
    refine .bind (initConstants_binds henv hp) fun _ => ?_
    exact callFunction_binds henv id none arguments

end Runs

end Scribe.Machine
