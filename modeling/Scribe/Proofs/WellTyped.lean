import Scribe.Proofs.Growth

/-!
# Programs whose nodes say the truth

A node of a program carries what was found out about it when it was made. It says the truth if the
finished program gives the same answer: its type derived again is the type it states
(`Expr.Truthful`), and what it says about its parts is what the rules say about them
(`Expr.Agrees`, `Stmt.Agrees`).
-/

namespace Scribe.Core

open Scribe.Lowering

/-! ## Nodes -/

/-- A call gives the parameters of its function arguments of their types, one for each. It has a
receiver if the function is a method, an instance of the model that the method belongs to. -/
def CallAgrees (p : Program) (receiver : Option Expr) (arguments : List Expr)
    (function : FunctionId) (returnType : Ty) : Prop :=
  ∃ f, p.getFunction? function = some f ∧ returnType = f.returnType ∧
    arguments.map (typeOf p) = f.parameters.map (fun q => .ok q.type) ∧
    receiver.map (typeOf p) = f.owner.map fun model => .ok (.model model)

/-- What a node says about its parts is what the rules say about them. -/
def Expr.Agrees (p : Program) : Expr → Prop
  | .list items item | .set items item => items ≠ [] ∧ ∀ e ∈ items, typeOf p e = .ok item
  | .map entries key value =>
    entries ≠ [] ∧ ∀ e ∈ entries, typeOf p e.1 = .ok key ∧ typeOf p e.2 = .ok value
  | .call receiver arguments function returnType =>
    CallAgrees p receiver arguments function returnType
  | .lookup container key kind output =>
    ∃ tc tk, typeOf p container = .ok tc ∧ typeOf p key = .ok tk ∧
      lookupType p tc tk = .ok (kind, output)
  | .property receiver field output =>
    typeOf p receiver = .ok (.model field.model) ∧
      p.definitionType? (.field field.model field.index) = some output
  | .contains container value =>
    ∃ item, typeOf p container = .ok (.set item) ∧ typeOf p value = .ok item
  | .length operand kind => ∃ t, typeOf p operand = .ok t ∧ lengthKind p t = .ok kind
  | .unary op operand output => ∃ t, typeOf p operand = .ok t ∧ unaryOutput p op t = .ok output
  | .binary op left right output =>
    ∃ tl tr, typeOf p left = .ok tl ∧ typeOf p right = .ok tr ∧
      if op.isEquality && (left.isNull || right.isNull) then tl = tr ∧ output = .bool
      else binaryOutput p op tl tr = .ok output
  | .var definition output => p.definitionType? definition = some output
  | .null output => output ≠ .void
  | .pop container item => typeOf p container = .ok (.list item)
  | .bool _ | .int _ | .rune _ | .string _ | .emptyList _ | .emptySet _ | .emptyMap _ _ | .new _
  | .self _ => True

/-- A node has the type that it states, and agrees with the rules about its parts. -/
structure Expr.Truthful (p : Program) (e : Expr) : Prop where
  typed : typeOf p e = .ok e.stated
  agrees : e.Agrees p

/-- A node that agrees with the rules has the type that it states. -/
theorem Expr.Agrees.truthful {p : Program} {e : Expr} (h : e.Agrees p) : e.Truthful p := by
  refine ⟨?_, h⟩
  cases e with
  | bool | int | rune | string | emptyList | emptySet | emptyMap | contains | new | self | length
  | null | pop => rfl
  | list items item | set items item =>
    simp only [typeOf, Result.bind_eq_ok, Result.pure_eq_ok, sharedType_items]
    exact ⟨item, h, rfl⟩
  | map entries key value =>
    simp only [typeOf, Result.bind_eq_ok, Result.pure_eq_ok, sharedType_keys, sharedType_values]
    exact ⟨key, ⟨h.1, fun e he => (h.2 e he).1⟩, value, ⟨h.1, fun e he => (h.2 e he).2⟩, rfl⟩
  | call receiver arguments function returnType =>
    obtain ⟨f, hf, hret, _, _⟩ := h
    simp only [typeOf, Result.bind_eq_ok, Result.pure_eq_ok, Checked.ofOption_eq_ok]
    exact ⟨f, hf, hret.symm⟩
  | lookup container key kind output =>
    obtain ⟨tc, tk, hc, hk, hl⟩ := h
    simp only [typeOf, Result.bind_eq_ok, Result.pure_eq_ok]
    exact ⟨tc, hc, tk, hk, (kind, output), hl, rfl⟩
  | property receiver field output =>
    simp only [typeOf, Checked.ofOption_eq_ok]
    exact h.2
  | unary op operand output =>
    obtain ⟨t, ht, ho⟩ := h
    simp only [typeOf, Result.bind_eq_ok, Result.pure_eq_ok]
    exact ⟨t, ht, output, ho, rfl⟩
  | binary op left right output =>
    obtain ⟨tl, tr, hl, hr, ho⟩ := h
    unfold typeOf
    by_cases hnull : (op.isEquality && (left.isNull || right.isNull)) = true
    · rw [if_pos hnull] at ho ⊢
      rw [Expr.stated, ho.2]
    · rw [if_neg hnull] at ho ⊢
      simp only [Result.bind_eq_ok, Result.pure_eq_ok]
      exact ⟨tl, hl, tr, hr, output, ho, rfl⟩
  | var definition output =>
    simp only [typeOf, Checked.ofOption_eq_ok]
    exact h

theorem CallAgrees.of_types {p : Program} {receiver : Option Expr} {arguments : List Expr}
    {function : FunctionId} {f : Function} (hf : p.getFunction? function = some f)
    (hreceiver : receiver.map (typeOf p) = f.owner.map fun model => .ok (.model model))
    (harguments : arguments.map (typeOf p) = (f.parameters.map (·.type)).map .ok) :
    CallAgrees p receiver arguments function f.returnType := by
  refine ⟨f, hf, rfl, ?_, hreceiver⟩
  rw [harguments, List.map_map]
  rfl

/-- What can be assigned to: a variable that is no constant, a field, an element of a list or a
map. -/
def Expr.IsPlace : Expr → Prop
  | .var definition _ => ∀ id, definition ≠ .constant id
  | .property _ _ _ => True
  | .lookup _ _ kind _ => kind ≠ .string
  | _ => False

/-- The parts of a statement have the types that it needs. -/
def Stmt.Agrees (p : Program) : Stmt → Prop
  | .declare _ value => ∃ t, typeOf p value = .ok t ∧ t ≠ .void
  | .assign place value => place.IsPlace ∧ ∃ t, typeOf p place = .ok t ∧ typeOf p value = .ok t
  | .conditional arms _ => ∀ arm ∈ arms, typeOf p arm.1 = .ok .bool
  | .forLoop _ condition _ _ => typeOf p condition = .ok .bool
  | .forEach _ iterable kind itemType _ =>
    ∃ t, typeOf p iterable = .ok t ∧ iterableKind p t = .ok (kind, itemType)
  | .ret value callable =>
    ∃ t, p.callableReturnType? callable = some t ∧ returnedType p value = .ok t
  | .add container value => ∃ item, typeOf p container = .ok (.set item) ∧ typeOf p value = .ok item
  | .push container value =>
    ∃ item, typeOf p container = .ok (.list item) ∧ typeOf p value = .ok item
  | .pop container => ∃ item, typeOf p container = .ok (.list item)
  | .call receiver arguments function returnType =>
    CallAgrees p receiver arguments function returnType
  | .brk | .cont => True

/-- Every node of a program says the truth, and a body that has to give a value ends in a return. -/
structure Program.WellTyped (p : Program) : Prop where
  constants : ∀ {id c}, p.getConstant? id = some c →
    c.value.All (Expr.Truthful p) ∧ typeOf p c.value = .ok c.type
  bodies : ∀ {callable body}, p.body? callable = some body → ∀ s ∈ body,
    s.All fun s => s.Agrees p ∧ ∀ e ∈ s.operands, e.All (Expr.Truthful p)
  returns : ∀ {callable body}, p.body? callable = some body →
    ∃ t, p.callableReturnType? callable = some t ∧
      (t = .void ∨ body.getLast?.any Stmt.isReturn = true)

/-! ## Growth -/

section Growth

variable {p p' : Program} (h : p.Grows p')

include h

theorem map_typeOf_grows {es : List Expr} {ts : List Ty}
    (hes : es.map (typeOf p) = ts.map .ok) : es.map (typeOf p') = ts.map .ok := by
  induction es generalizing ts with
  | nil =>
    cases ts with
    | nil => rfl
    | cons t ts => cases hes
  | cons e es ih =>
    cases ts with
    | nil => cases hes
    | cons t ts =>
      simp only [List.map_cons, List.cons.injEq] at hes ⊢
      exact ⟨typeOf_grows h e hes.1, ih hes.2⟩

theorem CallAgrees.grows {receiver : Option Expr} {arguments : List Expr} {function : FunctionId}
    {returnType : Ty} (hc : CallAgrees p receiver arguments function returnType) :
    CallAgrees p' receiver arguments function returnType := by
  obtain ⟨f, hf, hret, hargs, hrec⟩ := hc
  obtain ⟨f', hf', hs⟩ := h.functions hf
  refine ⟨f', hf', hret.trans hs.returnType.symm, ?_, ?_⟩
  · rw [hs.parameters]
    have hts : f.parameters.map (fun q => (.ok q.type : Checked Ty)) =
        (f.parameters.map (·.type)).map .ok := by rw [List.map_map]; rfl
    rw [hts] at hargs ⊢
    exact map_typeOf_grows h hargs
  · rw [hs.owner]
    cases receiver with
    | none => exact hrec
    | some e =>
      cases ho : f.owner with
      | none =>
        rw [ho] at hrec
        cases hrec
      | some model =>
        rw [ho] at hrec
        simp only [Option.map_some, Option.some.injEq] at hrec ⊢
        exact typeOf_grows h e hrec

theorem Expr.Agrees.grows {e : Expr} (he : e.Agrees p) : e.Agrees p' := by
  cases e with
  | list items item => exact ⟨he.1, fun e hmem => typeOf_grows h e (he.2 e hmem)⟩
  | set items item => exact ⟨he.1, fun e hmem => typeOf_grows h e (he.2 e hmem)⟩
  | map entries key value =>
    refine ⟨he.1, fun e hmem => ?_⟩
    obtain ⟨hk, hv⟩ := he.2 e hmem
    exact ⟨typeOf_grows h _ hk, typeOf_grows h _ hv⟩
  | call receiver arguments function returnType => exact CallAgrees.grows h he
  | lookup container key kind output =>
    obtain ⟨tc, tk, hc, hk, hl⟩ := he
    refine ⟨tc, tk, typeOf_grows h _ hc, typeOf_grows h _ hk, ?_⟩
    rw [lookupType_eq_ok] at hl ⊢
    exact hl
  | property receiver field output => exact ⟨typeOf_grows h _ he.1, h.definitionType? he.2⟩
  | contains container value =>
    obtain ⟨item, hc, hv⟩ := he
    exact ⟨item, typeOf_grows h _ hc, typeOf_grows h _ hv⟩
  | length operand kind =>
    obtain ⟨t, ht, hk⟩ := he
    refine ⟨t, typeOf_grows h _ ht, ?_⟩
    rw [lengthKind_eq_ok] at hk ⊢
    exact hk
  | unary op operand output =>
    obtain ⟨t, ht, ho⟩ := he
    refine ⟨t, typeOf_grows h _ ht, ?_⟩
    rw [unaryOutput_eq_ok] at ho ⊢
    exact ho
  | binary op left right output =>
    obtain ⟨tl, tr, hl, hr, ho⟩ := he
    refine ⟨tl, tr, typeOf_grows h _ hl, typeOf_grows h _ hr, ?_⟩
    simp only [binaryOutput_eq_ok] at ho ⊢
    exact ho
  | var definition output => exact h.definitionType? he
  | pop container item => exact typeOf_grows h _ he
  | null output => exact he
  | bool | int | rune | string | emptyList | emptySet | emptyMap | new | self => trivial

theorem Expr.Truthful.grows {e : Expr} (he : e.Truthful p) : e.Truthful p' :=
  ⟨typeOf_grows h e he.typed, he.agrees.grows h⟩

theorem Stmt.Agrees.grows {s : Stmt} (hs : s.Agrees p) : s.Agrees p' := by
  cases s with
  | declare id value =>
    obtain ⟨t, ht, hvoid⟩ := hs
    exact ⟨t, typeOf_grows h _ ht, hvoid⟩
  | assign place value =>
    obtain ⟨hplace, t, hp, hv⟩ := hs
    exact ⟨hplace, t, typeOf_grows h _ hp, typeOf_grows h _ hv⟩
  | conditional arms otherwise => exact fun arm harm => typeOf_grows h _ (hs arm harm)
  | forLoop start condition after body => exact typeOf_grows h _ hs
  | forEach item iterable kind itemType body =>
    obtain ⟨t, ht, hk⟩ := hs
    refine ⟨t, typeOf_grows h _ ht, ?_⟩
    rw [iterableKind_eq_ok] at hk ⊢
    exact hk
  | ret value callable =>
    obtain ⟨t, hc, hv⟩ := hs
    exact ⟨t, h.callableReturnType? hc, returnedType_grows h hv⟩
  | add container value | push container value =>
    obtain ⟨item, hc, hv⟩ := hs
    exact ⟨item, typeOf_grows h _ hc, typeOf_grows h _ hv⟩
  | pop container =>
    obtain ⟨item, hc⟩ := hs
    exact ⟨item, typeOf_grows h _ hc⟩
  | call receiver arguments function returnType => exact CallAgrees.grows h hs
  | brk | cont => trivial

end Growth

end Scribe.Core
