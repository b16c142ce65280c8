import Scribe.Proofs.Inversion

/-!
# The typing rules as relations

Each rule of `Scribe.Lowering.Typing` is a function with an error. Here each of them is said
as a condition on types: when the rule answers and with what. None of the conditions mentions the
program, which the rules look at for the texts of their errors only.
-/

namespace Scribe.Lowering

open Scribe.Core

variable {p : Program}

theorem mismatch_eq_ok {α : Type} {expected : String} {found : Ty} {a : α} :
    (mismatch p expected found : Checked α) = .ok a ↔ False := by
  unfold mismatch
  simp only [Result.bind_eq_ok, Result.throw_eq_ok, and_false, exists_false]

variable {u : Unit} {t : Ty} {expected : Ty} {part : LiteralPart}

theorem ensureType_eq_ok {expected found : Ty} :
    ensureType p expected found = .ok u ↔ expected = found := by
  unfold ensureType
  by_cases h : expected = found
  · rw [if_pos h]
    exact ⟨fun _ => h, fun _ => rfl⟩
  · rw [if_neg h]
    simp only [Result.bind_eq_ok, mismatch_eq_ok, and_false, exists_false, h]

/-! ## Operators -/

variable {output : Primitive} {item : Ty} {name : String} {elements : List (Checked Ty)}
  {entries : List (Expr × Expr)} {value : Option Expr}

theorem unaryOutput_eq_ok {op : UnaryOp} {operand : Ty} :
    unaryOutput p op operand = .ok output ↔ unaryResult? op operand = some output := by
  unfold unaryOutput
  cases unaryResult? op operand with
  | none =>
    simp only [Result.bind_eq_ok, Result.throw_eq_ok, and_false, exists_false, reduceCtorEq]
  | some o => simp only [Result.pure_eq_ok, Option.some.injEq]

theorem binaryOutput_eq_ok {op : BinaryOp} {left right : Ty} :
    binaryOutput p op left right = .ok output ↔
      ∃ l r table, left = .primitive l ∧ right = .primitive r ∧ binaryTable? l r = some table ∧
        table op = some output := by
  constructor
  · intro h
    unfold binaryOutput at h
    split at h
    · next l r =>
      split at h
      · cases h
      · next table htable =>
        split at h
        · next o ho =>
          cases h
          exact ⟨l, r, table, rfl, rfl, htable, ho⟩
        · cases h
    · simp only [Result.bind_eq_ok, mismatch_eq_ok, and_false, exists_false] at h
  · rintro ⟨l, r, table, rfl, rfl, htable, ho⟩
    simp only [binaryOutput, htable, ho]

/-- The operands of a binary operator have the same type, and it is no `void`. -/
theorem binaryTable?_eq_some {l r : Primitive} {table : BinaryOp → Option Primitive}
    (h : binaryTable? l r = some table) : l = r ∧ l ≠ .void := by
  cases l <;> cases r <;> first | exact ⟨rfl, by decide⟩ | cases h

/-! ## Containers and members -/

/-- The three ways to look something up. -/
theorem lookupType_eq_ok {container key output : Ty} {kind : LookupKind} :
    lookupType p container key = .ok (kind, output) ↔
      (container = .list output ∧ key = .int ∧ kind = .list) ∨
      (container = .map key output ∧ kind = .map) ∨
      (container = .string ∧ key = .int ∧ kind = .string ∧ output = .rune) := by
  constructor
  · intro h
    unfold lookupType at h
    split at h
    · simp only [Result.bind_eq_ok, ensureType_eq_ok, Result.pure_eq_ok, Prod.mk.injEq] at h
      obtain ⟨_, hkey, hkind, hout⟩ := h
      exact .inl ⟨congrArg Ty.list hout, hkey.symm, hkind.symm⟩
    · simp only [Result.bind_eq_ok, ensureType_eq_ok, Result.pure_eq_ok, Prod.mk.injEq] at h
      obtain ⟨_, hkey, hkind, hout⟩ := h
      exact .inr (.inl ⟨by rw [hkey, hout], hkind.symm⟩)
    · simp only [Result.bind_eq_ok, ensureType_eq_ok, Result.pure_eq_ok, Prod.mk.injEq] at h
      obtain ⟨_, hkey, hkind, hout⟩ := h
      exact .inr (.inr ⟨rfl, hkey.symm, hkind.symm, hout.symm⟩)
    · simp only [Result.bind_eq_ok, Result.throw_eq_ok, and_false, exists_false] at h
  · rintro (⟨rfl, rfl, rfl⟩ | ⟨rfl, rfl⟩ | ⟨rfl, rfl, rfl, rfl⟩)
    all_goals
      simp only [lookupType, Result.bind_eq_ok, ensureType_eq_ok, Result.pure_eq_ok]
      exact ⟨(), trivial, trivial⟩

/-- What has a length. -/
inductive Measurable : Ty → LengthKind → Prop where
  | string : Measurable .string .string
  | list (item : Ty) : Measurable (.list item) .list
  | map (key value : Ty) : Measurable (.map key value) .map
  | set (item : Ty) : Measurable (.set item) .set

theorem lengthKind_eq_ok {kind : LengthKind} : lengthKind p t = .ok kind ↔ Measurable t kind := by
  constructor
  · intro h
    unfold lengthKind at h
    split at h
    · cases h
      exact .string
    · cases h
      exact .list _
    · cases h
      exact .map _ _
    · cases h
      exact .set _
    · exact (mismatch_eq_ok.mp h).elim
  · rintro (_ | _ | _ | _) <;> rfl

theorem iterableKind_eq_ok {t : Ty} {kind : IterableKind} :
    iterableKind p t = .ok (kind, item) ↔
      (t = .list item ∧ kind = .list) ∨ (t = .set item ∧ kind = .set) := by
  constructor
  · intro h
    unfold iterableKind at h
    split at h
    · cases h
      exact .inl ⟨rfl, rfl⟩
    · cases h
      exact .inr ⟨rfl, rfl⟩
    · exact (mismatch_eq_ok.mp h).elim
  · rintro (⟨rfl, rfl⟩ | ⟨rfl, rfl⟩) <;> rfl

theorem listItem_eq_ok {t : Ty} : listItem p t = .ok item ↔ t = .list item := by
  constructor
  · intro h
    unfold listItem at h
    split at h
    · cases h
      rfl
    · exact (mismatch_eq_ok.mp h).elim
  · rintro rfl
    rfl

theorem setItem_eq_ok {t : Ty} : setItem p t = .ok item ↔ t = .set item := by
  constructor
  · intro h
    unfold setItem at h
    split at h
    · cases h
      rfl
    · exact (mismatch_eq_ok.mp h).elim
  · rintro rfl
    rfl

theorem receiverModel_eq_ok {id : ModelId} : receiverModel p t = .ok id ↔ t = .model id := by
  constructor
  · intro h
    unfold receiverModel at h
    split at h
    · cases h
      rfl
    · exact (mismatch_eq_ok.mp h).elim
  · rintro rfl
    rfl

theorem resolveMethod_eq_ok {receiver : Ty} {function : FunctionId} :
    resolveMethod p receiver name = .ok function ↔
      ∃ id m, receiver = .model id ∧ p.getModel? id = some m ∧ m.method? name = some function := by
  unfold resolveMethod
  simp only [Result.bind_eq_ok, Checked.ofOption_eq_ok, receiverModel_eq_ok]
  constructor
  · rintro ⟨id, rfl, m, hm, h⟩
    cases hf : m.method? name with
    | none =>
      rw [hf] at h
      cases h
    | some g =>
      rw [hf] at h
      exact ⟨id, m, rfl, hm, hf.trans (congrArg some (Result.pure_eq_ok.mp h))⟩
  · rintro ⟨id, m, rfl, hm, hf⟩
    refine ⟨id, rfl, m, hm, ?_⟩
    rw [hf]
    rfl

/-! ## Literals -/

theorem agree_eq_ok :
    agree p part expected elements = .ok u ↔ ∀ x ∈ elements, x = .ok expected := by
  induction elements with
  | nil => exact ⟨fun _ _ hx => (List.not_mem_nil hx).elim, fun _ => rfl⟩
  | cons element rest ih =>
    unfold agree
    simp only [Result.bind_eq_ok, List.forall_mem_cons]
    constructor
    · rintro ⟨found, rfl, h⟩
      by_cases hf : found = expected
      · rw [if_pos hf] at h
        exact ⟨congrArg Except.ok hf, ih.mp h⟩
      · rw [if_neg hf] at h
        simp only [Result.bind_eq_ok, Result.throw_eq_ok, and_false, exists_false] at h
    · rintro ⟨rfl, hrest⟩
      refine ⟨expected, rfl, ?_⟩
      rw [if_pos rfl]
      exact ih.mpr hrest

/-- A literal has a type if it has an element and all elements have that type. -/
theorem sharedType_eq_ok :
    sharedType p part elements = .ok t ↔ elements ≠ [] ∧ ∀ x ∈ elements, x = .ok t := by
  cases elements with
  | nil => exact ⟨by rintro ⟨⟩, fun h => (h.1 rfl).elim⟩
  | cons first rest =>
    unfold sharedType
    simp only [Result.bind_eq_ok, agree_eq_ok, Result.pure_eq_ok, List.forall_mem_cons]
    constructor
    · rintro ⟨expected, rfl, _, hrest, rfl⟩
      exact ⟨List.cons_ne_nil _ _, rfl, hrest⟩
    · rintro ⟨_, rfl, hrest⟩
      exact ⟨t, rfl, (), hrest, rfl⟩

theorem typesOf_eq_map (es : List Expr) : typesOf p es = es.map (typeOf p) := by
  induction es with
  | nil => rfl
  | cons e rest ih => rw [typesOf, List.map_cons, ih]

theorem keyTypes_eq_map (entries : List (Expr × Expr)) :
    keyTypes p entries = entries.map fun e => typeOf p e.1 := by
  induction entries with
  | nil => rfl
  | cons e rest ih => rw [keyTypes, List.map_cons, ih]

theorem valueTypes_eq_map (entries : List (Expr × Expr)) :
    valueTypes p entries = entries.map fun e => typeOf p e.2 := by
  induction entries with
  | nil => rfl
  | cons e rest ih => rw [valueTypes, List.map_cons, ih]

theorem sharedType_items {items : List Expr} :
    sharedType p part (typesOf p items) = .ok t ↔
      items ≠ [] ∧ ∀ e ∈ items, typeOf p e = .ok t := by
  rw [sharedType_eq_ok, typesOf_eq_map, List.forall_mem_map, ne_eq, List.map_eq_nil_iff]

theorem sharedType_keys :
    sharedType p part (keyTypes p entries) = .ok t ↔
      entries ≠ [] ∧ ∀ e ∈ entries, typeOf p e.1 = .ok t := by
  rw [sharedType_eq_ok, keyTypes_eq_map, List.forall_mem_map, ne_eq, List.map_eq_nil_iff]

theorem sharedType_values :
    sharedType p part (valueTypes p entries) = .ok t ↔
      entries ≠ [] ∧ ∀ e ∈ entries, typeOf p e.2 = .ok t := by
  rw [sharedType_eq_ok, valueTypes_eq_map, List.forall_mem_map, ne_eq, List.map_eq_nil_iff]

/-! ## Conditions, returns and last statements -/

theorem checkCondition_eq_ok {condition : Expr} :
    checkCondition p condition = .ok u ↔ typeOf p condition = .ok .bool := by
  unfold checkCondition
  simp only [Result.bind_eq_ok]
  constructor
  · rintro ⟨found, hfound, h⟩
    by_cases hb : found = .bool
    · rw [hfound, hb]
    · rw [if_neg hb] at h
      simp only [Result.bind_eq_ok, Result.throw_eq_ok, and_false, exists_false] at h
  · intro h
    exact ⟨.bool, h, rfl⟩

/-- The type that a return gives to its callable. -/
def returnedType (p : Program) : Option Expr → Checked Ty
  | some e => typeOf p e
  | none => .ok .void

/-- What `checkReturn` does once it knows the type of the value. -/
theorem checkReturn_eq :
    checkReturn p expected value = (do
      let found ← returnedType p value
      if found = expected then
        return ()
      else
        throw (.returnTypeMismatch (← describe p expected) (← describe p found))) := by
  cases value <;> rfl

theorem checkReturn_eq_ok :
    checkReturn p expected value = .ok u ↔ returnedType p value = .ok expected := by
  rw [checkReturn_eq]
  simp only [Result.bind_eq_ok]
  constructor
  · rintro ⟨found, hf, h⟩
    by_cases he : found = expected
    · rw [hf, he]
    · rw [if_neg he] at h
      simp only [Result.bind_eq_ok, Result.throw_eq_ok, and_false, exists_false] at h
  · intro h
    exact ⟨expected, h, by rw [if_pos rfl]; rfl⟩

theorem checkTerminal_eq_ok {returnType : Ty} {body : Block} :
    checkTerminal name returnType body = .ok u ↔
      returnType = .void ∨ body.getLast?.any Stmt.isReturn = true := by
  unfold checkTerminal
  split
  · next h =>
    simp only [Bool.or_eq_true, Ty.isVoid_iff] at h
    exact ⟨fun _ => h, fun _ => rfl⟩
  · next h =>
    simp only [Bool.or_eq_true, Ty.isVoid_iff] at h
    exact ⟨by rintro ⟨⟩, fun hb => (h hb).elim⟩

end Scribe.Lowering
