import Mathlib.Data.Fintype.EquivFin
import Mathlib.Logic.Relation
import Scribe.Proofs.Occurrence

/-!
# Which functions call which

The calls in code name their functions, so which functions a body can call is known without running
it (`Expr.callees`, `Stmt.callees`). Where no function can come back to itself in this way, what
holds of a function if it holds of those that its body calls holds of all functions
(`Program.NoRecursion.induction`).
-/

namespace Scribe.Core

open Relation (TransGen)

/-! ## Expressions -/

mutual

/-- The functions that an expression calls, itself or in its parts. -/
def Expr.callees : Expr → List FunctionId
  | .list items _ | .set items _ => itemCallees items
  | .map entries _ _ => entryCallees entries
  | .call receiver arguments function _ =>
    function :: (partialCallees receiver ++ itemCallees arguments)
  | .lookup container key _ _ => container.callees ++ key.callees
  | .property receiver _ _ => receiver.callees
  | .contains container value => container.callees ++ value.callees
  | .length operand _ => operand.callees
  | .unary _ operand _ => operand.callees
  | .binary _ left right _ => left.callees ++ right.callees
  | .pop container _ => container.callees
  | .bool _ | .int _ | .rune _ | .string _ | .emptyList _ | .emptySet _ | .emptyMap _ _ | .new _
  | .var _ _ | .self _ | .null _ => []

def itemCallees : List Expr → List FunctionId
  | [] => []
  | e :: rest => e.callees ++ itemCallees rest

def entryCallees : List (Expr × Expr) → List FunctionId
  | [] => []
  | (key, value) :: rest => key.callees ++ (value.callees ++ entryCallees rest)

def partialCallees : Option Expr → List FunctionId
  | none => []
  | some e => e.callees

end

section Expressions

variable {e c : Expr} {id : FunctionId}

theorem mem_itemCallees {es : List Expr} (he : e ∈ es) (hid : id ∈ e.callees) :
    id ∈ itemCallees es := by
  induction es with
  | nil => cases he
  | cons f rest ih =>
    unfold itemCallees
    obtain rfl | he := List.mem_cons.mp he
    · exact List.mem_append_left _ hid
    · exact List.mem_append_right _ (ih he)

theorem mem_entryCallees {entries : List (Expr × Expr)}
    (he : e ∈ entries.flatMap fun e => [e.1, e.2]) (hid : id ∈ e.callees) :
    id ∈ entryCallees entries := by
  induction entries with
  | nil => cases he
  | cons entry rest ih =>
    unfold entryCallees
    simp only [List.flatMap_cons, List.cons_append, List.nil_append, List.mem_cons] at he
    obtain rfl | rfl | he := he
    · exact List.mem_append_left _ hid
    · exact List.mem_append_right _ (List.mem_append_left _ hid)
    · exact List.mem_append_right _ (List.mem_append_right _ (ih he))

theorem mem_partialCallees {part : Option Expr} (he : e ∈ part.toList) (hid : id ∈ e.callees) :
    id ∈ partialCallees part := by
  cases part with
  | none => cases he
  | some f =>
    rw [Option.toList_some, List.mem_singleton] at he
    subst he
    exact hid

/-- What a part of an expression calls, the expression calls. -/
theorem Expr.mem_callees_of_child (hc : c ∈ e.children) (hid : id ∈ c.callees) :
    id ∈ e.callees := by
  cases e with
  | list items item | set items item => exact mem_itemCallees hc hid
  | map entries key value => exact mem_entryCallees hc hid
  | call receiver arguments function returnType =>
    refine List.mem_cons_of_mem _ (List.mem_append.mpr ?_)
    obtain hc | hc := List.mem_append.mp hc
    · exact .inl (mem_partialCallees hc hid)
    · exact .inr (mem_itemCallees hc hid)
  | lookup | contains | binary =>
    simp only [children, List.mem_cons, List.not_mem_nil, or_false] at hc
    obtain rfl | rfl := hc
    · exact List.mem_append_left _ hid
    · exact List.mem_append_right _ hid
  | property | length | unary | pop =>
    obtain rfl := List.mem_singleton.mp hc
    exact hid
  | _ => cases hc

end Expressions

/-! ## Statements -/

mutual

/-- The functions that a statement calls, itself or in its parts. -/
def Stmt.callees : Stmt → List FunctionId
  | .declare _ value => value.callees
  | .assign place value => place.callees ++ value.callees
  | .conditional arms otherwise => armCallees arms ++ otherwiseCallees otherwise
  | .forLoop start condition after body =>
    condition.callees ++ (partCallees start ++ (partCallees after ++ blockCallees body))
  | .forEach _ iterable _ _ body => iterable.callees ++ blockCallees body
  | .ret value _ => partialCallees value
  | .brk | .cont => []
  | .add container value => container.callees ++ value.callees
  | .push container value => container.callees ++ value.callees
  | .pop container => container.callees
  | .call receiver arguments function _ =>
    function :: (partialCallees receiver ++ itemCallees arguments)

def blockCallees : List Stmt → List FunctionId
  | [] => []
  | s :: rest => s.callees ++ blockCallees rest

def partCallees : Option Stmt → List FunctionId
  | none => []
  | some s => s.callees

def armCallees : List (Expr × List Stmt) → List FunctionId
  | [] => []
  | (condition, block) :: rest => condition.callees ++ (blockCallees block ++ armCallees rest)

def otherwiseCallees : Option (List Stmt) → List FunctionId
  | none => []
  | some block => blockCallees block

end

/-- Whether a statement is a `for`. -/
def Stmt.isFor : Stmt → Bool
  | .forLoop .. => true
  | _ => false

theorem Stmt.All.leaf {P : Stmt → Prop} {s : Stmt} (h : P s) (hs : s.children = []) : s.All P :=
  .intro h (by rw [hs]; exact List.forall_mem_nil _)

section Statements

variable {s t : Stmt} {e : Expr} {id : FunctionId}

theorem mem_blockCallees {block : List Stmt} (hs : s ∈ block) (hid : id ∈ s.callees) :
    id ∈ blockCallees block := by
  induction block with
  | nil => cases hs
  | cons t rest ih =>
    unfold blockCallees
    obtain rfl | hs := List.mem_cons.mp hs
    · exact List.mem_append_left _ hid
    · exact List.mem_append_right _ (ih hs)

theorem mem_partCallees {part : Option Stmt} (hs : s ∈ part.toList) (hid : id ∈ s.callees) :
    id ∈ partCallees part := by
  cases part with
  | none => cases hs
  | some t =>
    rw [Option.toList_some, List.mem_singleton] at hs
    subst hs
    exact hid

theorem mem_armCallees {arms : List (Expr × List Stmt)} {arm : Expr × List Stmt}
    (harm : arm ∈ arms) (hid : id ∈ arm.1.callees ++ blockCallees arm.2) :
    id ∈ armCallees arms := by
  induction arms with
  | nil => cases harm
  | cons first rest ih =>
    unfold armCallees
    rw [← List.append_assoc]
    obtain rfl | harm := List.mem_cons.mp harm
    · exact List.mem_append_left _ hid
    · exact List.mem_append_right _ (ih harm)

/-- What an expression of a statement calls, the statement calls. -/
theorem Stmt.mem_callees_of_operand (he : e ∈ s.operands) (hid : id ∈ e.callees) :
    id ∈ s.callees := by
  cases s with
  | declare | pop =>
    obtain rfl := List.mem_singleton.mp he
    exact hid
  | assign | add | push =>
    simp only [operands, List.mem_cons, List.not_mem_nil, or_false] at he
    obtain rfl | rfl := he
    · exact List.mem_append_left _ hid
    · exact List.mem_append_right _ hid
  | conditional arms otherwise =>
    obtain ⟨arm, harm, rfl⟩ := List.mem_map.mp he
    exact List.mem_append_left _ (mem_armCallees harm (List.mem_append_left _ hid))
  | forLoop | forEach =>
    obtain rfl := List.mem_singleton.mp he
    exact List.mem_append_left _ hid
  | ret value callable => exact mem_partialCallees he hid
  | brk | cont => cases he
  | call receiver arguments function returnType =>
    refine List.mem_cons_of_mem _ (List.mem_append.mpr ?_)
    obtain he | he := List.mem_append.mp he
    · exact .inl (mem_partialCallees he hid)
    · exact .inr (mem_itemCallees he hid)

/-- What a part of a statement calls, the statement calls. -/
theorem Stmt.mem_callees_of_child (ht : t ∈ s.children) (hid : id ∈ t.callees) :
    id ∈ s.callees := by
  cases s with
  | conditional arms otherwise =>
    refine List.mem_append.mpr ?_
    obtain ht | ht := List.mem_append.mp ht
    · obtain ⟨arm, harm, ht⟩ := List.mem_flatMap.mp ht
      exact .inl (mem_armCallees harm (List.mem_append_right _ (mem_blockCallees ht hid)))
    · cases otherwise with
      | none => cases ht
      | some block => exact .inr (mem_blockCallees ht hid)
  | forLoop start condition after body =>
    refine List.mem_append_right _ (List.mem_append.mpr ?_)
    obtain ht | ht := List.mem_append.mp ht
    · exact .inl (mem_partCallees ht hid)
    · obtain ht | ht := List.mem_append.mp ht
      · exact .inr (List.mem_append_left _ (mem_partCallees ht hid))
      · exact .inr (List.mem_append_right _ (mem_blockCallees ht hid))
  | forEach item iterable kind itemType body =>
    exact List.mem_append_right _ (mem_blockCallees ht hid)
  | _ => cases ht

end Statements

/-! ## Programs -/

namespace Program

/-- The body of a function calls another one. -/
def CallEdge (p : Program) (caller callee : FunctionId) : Prop :=
  ∃ f, p.getFunction? caller = some f ∧ callee ∈ blockCallees f.body

/-- No function can be called again before it has come back. -/
def NoRecursion (p : Program) : Prop :=
  ∀ id, ¬TransGen p.CallEdge id id

/-- No body has a `for`. -/
def NoFor (p : Program) : Prop :=
  ∀ callable body, p.body? callable = some body → ∀ s ∈ body, s.All fun s => s.isFor = false

/-- There is no recursion if every function calls only those that come after it. -/
theorem noRecursion_of_later {p : Program} (h : ∀ f ∈ p.functions.toList.zipIdx,
    ∀ callee ∈ blockCallees f.1.body, f.2 < callee.index) : p.NoRecursion := by
  have hlt {caller callee : FunctionId} (hedge : p.CallEdge caller callee) :
      caller.index < callee.index := by
    obtain ⟨f, hf, hcallee⟩ := hedge
    rw [getFunction?, ← Array.getElem?_toList] at hf
    exact h (f, caller.index) (List.mem_zipIdx_iff_getElem?.mpr hf) callee hcallee
  have hgen {caller callee : FunctionId} (hcalls : TransGen p.CallEdge caller callee) :
      caller.index < callee.index := by
    induction hcalls with
    | single hedge => exact hlt hedge
    | tail _ hedge ih => exact Nat.lt_trans ih (hlt hedge)
  exact fun id hcycle => Nat.lt_irrefl _ (hgen hcycle)

/-- Induction along the calls of a program without recursion. There are finitely many functions, so
going from callers to callees comes to its end. -/
theorem NoRecursion.induction {p : Program} (hp : p.NoRecursion) {P : FunctionId → Prop}
    (h : ∀ id f, p.getFunction? id = some f → (∀ callee ∈ blockCallees f.body, P callee) → P id)
    (hnone : ∀ id, p.getFunction? id = none → P id) (id : FunctionId) : P id := by
  let calls (i j : Fin p.functions.size) : Prop := TransGen p.CallEdge ⟨j⟩ ⟨i⟩
  have htrans : IsTrans (Fin p.functions.size) calls := ⟨fun _ _ _ hij hjk => hjk.trans hij⟩
  have hirrefl : Std.Irrefl calls := ⟨fun i hcycle => hp ⟨i⟩ hcycle⟩
  have hwf : WellFounded calls := Finite.wellFounded_of_trans_of_irrefl calls
  have hall (i : Fin p.functions.size) : P ⟨i⟩ := by
    induction i using hwf.induction with
    | _ i ih =>
      have hf : p.getFunction? ⟨i⟩ = some p.functions[i] := Array.getElem?_eq_getElem i.isLt
      refine h ⟨i⟩ _ hf fun callee hcallee => ?_
      cases hg : p.getFunction? callee with
      | none => exact hnone callee hg
      | some g =>
        have hlt : callee.index < p.functions.size := (Array.getElem?_eq_some_iff.mp hg).1
        exact ih ⟨callee.index, hlt⟩ (.single ⟨_, hf, hcallee⟩)
  cases hf : p.getFunction? id with
  | none => exact hnone id hf
  | some f => exact hall ⟨id.index, (Array.getElem?_eq_some_iff.mp hf).1⟩

end Program

end Scribe.Core
