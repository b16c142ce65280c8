import Scribe.Proofs.Resolve
import Scribe.Proofs.Pending

/-!
# Ids by other numbers

Ids are positions in tables, so they change when definitions change places. A renaming says which id
becomes which, and `rename` puts the new ids into types, expressions, statements and definitions.

`Similar ρ p q` says that `q` has the definitions of `p` under their new ids, as far as lowering
looks at them: signatures, and what names stand for. Everything that lowering looks up is then found
again in `q`, with new ids.
-/

namespace Scribe.Core

/-- New ids for functions, models and locals. -/
structure Renaming where
  functions : FunctionId → FunctionId
  models : ModelId → ModelId
  locals : LocalId → LocalId

/-! ## Trees with new ids -/

section Rename

variable (σ : ModelId → ModelId) (ρ : Renaming)

def Ty.rename : Ty → Ty
  | .primitive t => .primitive t
  | .list item => .list item.rename
  | .map key value => .map key.rename value.rename
  | .set item => .set item.rename
  | .model id => .model (σ id)

def Definition.rename : Definition → Definition
  | .constant id => .constant id
  | .argument function i => .argument (ρ.functions function) i
  | .field model i => .field (ρ.models model) i
  | .binding id => .binding (ρ.locals id)

def Callable.rename : Callable → Callable
  | .function id => .function (ρ.functions id)
  | .equality id => .equality (ρ.models id)
  | .hashing id => .hashing (ρ.models id)

def FieldRef.rename (field : FieldRef) : FieldRef :=
  ⟨σ field.model, field.index⟩

mutual

def Expr.rename : Expr → Expr
  | .bool value => .bool value
  | .int value => .int value
  | .rune value => .rune value
  | .string value => .string value
  | .list items item => .list (renameExprs items) (item.rename ρ.models)
  | .map entries key value =>
    .map (renameEntries entries) (key.rename ρ.models) (value.rename ρ.models)
  | .set items item => .set (renameExprs items) (item.rename ρ.models)
  | .emptyList item => .emptyList (item.rename ρ.models)
  | .emptySet item => .emptySet (item.rename ρ.models)
  | .emptyMap key value => .emptyMap (key.rename ρ.models) (value.rename ρ.models)
  | .call receiver arguments function returnType =>
    .call (renameReceiver receiver) (renameExprs arguments) (ρ.functions function)
      (returnType.rename ρ.models)
  | .lookup container key kind output =>
    .lookup container.rename key.rename kind (output.rename ρ.models)
  | .property receiver field output =>
    .property receiver.rename (field.rename ρ.models) (output.rename ρ.models)
  | .contains set value => .contains set.rename value.rename
  | .new model => .new (ρ.models model)
  | .length operand kind => .length operand.rename kind
  | .unary op operand output => .unary op operand.rename output
  | .binary op left right output => .binary op left.rename right.rename output
  | .var definition output => .var (definition.rename ρ) (output.rename ρ.models)
  | .self model => .self (ρ.models model)
  | .null output => .null (output.rename ρ.models)
  | .pop list item => .pop list.rename (item.rename ρ.models)

def renameExprs : List Expr → List Expr
  | [] => []
  | e :: es => e.rename :: renameExprs es

def renameEntries : List (Expr × Expr) → List (Expr × Expr)
  | [] => []
  | (key, value) :: entries => (key.rename, value.rename) :: renameEntries entries

def renameReceiver : Option Expr → Option Expr
  | none => none
  | some e => some e.rename

end

mutual

def Stmt.rename : Stmt → Stmt
  | .declare id value => .declare (ρ.locals id) (value.rename ρ)
  | .assign place value => .assign (place.rename ρ) (value.rename ρ)
  | .conditional arms otherwise => .conditional (renameArms arms) (renameOtherwise otherwise)
  | .forLoop start condition after body =>
    .forLoop (renamePart start) (condition.rename ρ) (renamePart after) (renameBlock body)
  | .forEach item iterable kind itemType body =>
    .forEach (ρ.locals item) (iterable.rename ρ) kind (itemType.rename ρ.models)
      (renameBlock body)
  | .ret value callable => .ret (renameReceiver ρ value) (callable.rename ρ)
  | .brk => .brk
  | .cont => .cont
  | .add set value => .add (set.rename ρ) (value.rename ρ)
  | .push list value => .push (list.rename ρ) (value.rename ρ)
  | .pop list => .pop (list.rename ρ)
  | .call receiver arguments function returnType =>
    .call (renameReceiver ρ receiver) (renameExprs ρ arguments) (ρ.functions function)
      (returnType.rename ρ.models)

def renameBlock : List Stmt → List Stmt
  | [] => []
  | s :: rest => s.rename :: renameBlock rest

def renamePart : Option Stmt → Option Stmt
  | none => none
  | some s => some s.rename

def renameArms : List (Expr × List Stmt) → List (Expr × List Stmt)
  | [] => []
  | (condition, block) :: rest => (condition.rename ρ, renameBlock block) :: renameArms rest

def renameOtherwise : Option (List Stmt) → Option (List Stmt)
  | none => none
  | some block => some (renameBlock block)

end

/-! ## Definitions with new ids -/

def Parameter.rename (q : Parameter) : Parameter :=
  { q with type := q.type.rename σ }

def Field.rename (f : Field) : Field :=
  { f with type := f.type.rename σ }

def Local.rename (l : Local) : Local :=
  { l with type := l.type.rename σ }

def Constant.rename (k : Constant) : Constant :=
  { k with value := k.value.rename ρ, type := k.type.rename ρ.models }

def Method.rename (x : Method) : Method :=
  { x with function := ρ.functions x.function }

def Function.rename (f : Function) : Function where
  name := f.name
  parameters := f.parameters.map (·.rename ρ.models)
  returnType := f.returnType.rename ρ.models
  owner := f.owner.map ρ.models
  body := renameBlock ρ f.body

def Equality.rename (e : Equality) : Equality :=
  ⟨ρ.locals e.other, renameBlock ρ e.body⟩

/-! ## What new ids leave alone -/

theorem renameExprs_eq_map (es : List Expr) : renameExprs ρ es = es.map (·.rename ρ) := by
  induction es with
  | nil => rfl
  | cons e es ih => rw [renameExprs, List.map_cons, ih]

theorem renameEntries_eq_map (entries : List (Expr × Expr)) :
    renameEntries ρ entries = entries.map fun x => (x.1.rename ρ, x.2.rename ρ) := by
  induction entries with
  | nil => rfl
  | cons x entries ih => rw [renameEntries, List.map_cons, ih]

theorem renameBlock_eq_map (block : List Stmt) : renameBlock ρ block = block.map (·.rename ρ) := by
  induction block with
  | nil => rfl
  | cons s block ih => rw [renameBlock, List.map_cons, ih]

theorem Ty.rename_ne_void {σ : ModelId → ModelId} {t : Ty} (h : t ≠ .void) :
    t.rename σ ≠ .void := by
  cases t with
  | primitive t => exact h
  | _ => rintro ⟨⟩

theorem Expr.IsPlace.rename {e : Expr} (h : e.IsPlace) : (e.rename ρ).IsPlace := by
  cases e with
  | var d t =>
    intro id hd
    cases d with
    | constant id' => exact h id' rfl
    | _ => cases hd
  | _ => exact h

theorem Stmt.isReturn_rename (s : Stmt) : (s.rename ρ).isReturn = s.isReturn := by
  cases s <;> rfl

theorem endsInReturn_rename (block : List Stmt) :
    (renameBlock ρ block).getLast?.any Stmt.isReturn = block.getLast?.any Stmt.isReturn := by
  rw [renameBlock_eq_map, List.getLast?_map, Option.any_map]
  exact congrArg (block.getLast?.any ·) (funext (Stmt.isReturn_rename ρ))

mutual

theorem Stmt.binders_rename : ∀ s : Stmt, (s.rename ρ).binders = s.binders.map ρ.locals
  | .declare _ _ => rfl
  | .conditional arms otherwise => by
    rw [Stmt.rename, Stmt.binders, Stmt.binders, armBinders_rename arms,
      otherwiseBinders_rename otherwise, List.map_append]
  | .forLoop start _ after body => by
    rw [Stmt.rename, Stmt.binders, Stmt.binders, partBinders_rename start, partBinders_rename after,
      blockBinders_rename body, List.map_append, List.map_append]
  | .forEach _ _ _ _ body => by
    rw [Stmt.rename, Stmt.binders, Stmt.binders, blockBinders_rename body, List.map_cons]
  | .assign _ _ | .ret _ _ | .brk | .cont | .add _ _ | .push _ _ | .pop _ | .call _ _ _ _ => rfl

theorem blockBinders_rename : ∀ block : List Stmt,
    blockBinders (renameBlock ρ block) = (blockBinders block).map ρ.locals
  | [] => rfl
  | s :: rest => by
    rw [renameBlock, blockBinders, blockBinders, Stmt.binders_rename s, blockBinders_rename rest,
      List.map_append]

theorem partBinders_rename : ∀ part : Option Stmt,
    partBinders (renamePart ρ part) = (partBinders part).map ρ.locals
  | none => rfl
  | some s => Stmt.binders_rename s

theorem armBinders_rename : ∀ arms : List (Expr × List Stmt),
    armBinders (renameArms ρ arms) = (armBinders arms).map ρ.locals
  | [] => rfl
  | (_, block) :: rest => by
    rw [renameArms, armBinders, armBinders, blockBinders_rename block, armBinders_rename rest,
      List.map_append]

theorem otherwiseBinders_rename : ∀ otherwise : Option (List Stmt),
    otherwiseBinders (renameOtherwise ρ otherwise) = (otherwiseBinders otherwise).map ρ.locals
  | none => rfl
  | some block => blockBinders_rename block

end

end Rename

end Scribe.Core

namespace Scribe.Lowering

open Scribe.Core

/-! ## Scopes with new ids -/

variable (ρ : Renaming)

def Binding.rename (b : Binding) : Binding :=
  ⟨b.name, ρ.locals b.id⟩

def Frame.rename : Frame → Frame
  | .program => .program
  | .model id => .model (ρ.models id)
  | .function id => .function (ρ.functions id)
  | .equality id other => .equality (ρ.models id) (other.rename ρ)
  | .hashing id => .hashing (ρ.models id)
  | .block bindings => .block (bindings.map (·.rename ρ))
  | .forLoop binding => .forLoop (binding.map (·.rename ρ))
  | .forEach item => .forEach (item.rename ρ)

def Scope.rename (scope : Scope) : Scope :=
  scope.map (·.rename ρ)

section Scope

variable {ρ} {scope scope' : Scope}

theorem Scope.enclosingModel?_rename (scope : Scope) :
    (scope.rename ρ).enclosingModel? = scope.enclosingModel?.map ρ.models := by
  induction scope with
  | nil => rfl
  | cons frame outer ih =>
    cases frame with
    | model id => rfl
    | _ => exact ih

theorem Scope.enclosingCallable?_rename (scope : Scope) :
    (scope.rename ρ).enclosingCallable? = scope.enclosingCallable?.map (·.rename ρ) := by
  induction scope with
  | nil => rfl
  | cons frame outer ih =>
    cases frame with
    | function _ | equality _ _ | hashing _ => rfl
    | program | model _ | block _ | forLoop _ | forEach _ => exact ih

theorem Scope.inLoop_rename (scope : Scope) : (scope.rename ρ).inLoop = scope.inLoop := by
  induction scope with
  | nil => rfl
  | cons frame outer ih =>
    cases frame with
    | function _ | equality _ _ | hashing _ | forLoop _ | forEach _ => rfl
    | program | model _ | block _ => exact ih

theorem Scope.bind_rename {b : Binding} (h : scope.bind b = .ok scope') :
    (scope.rename ρ).bind (b.rename ρ) = .ok (scope'.rename ρ) := by
  cases Scope.extends_of_bind h with
  | @block bindings outer hfree =>
    have hany : (bindings.map (·.rename ρ)).any (·.name == (b.rename ρ).name) =
        bindings.any (·.name == b.name) := List.any_map
    show Scope.bind (b.rename ρ) (.block (bindings.map (·.rename ρ)) :: Scope.rename ρ outer) = _
    rw [Scope.bind, hany, if_neg (by simpa using hfree)]
    rfl
  | forLoop => rfl

end Scope

/-! ## Programs with the same definitions -/

/-- The signature of a function under new ids. -/
structure SignatureRenamed (f g : Function) : Prop where
  name : g.name = f.name
  parameters : g.parameters = f.parameters.map (·.rename ρ.models)
  returnType : g.returnType = f.returnType.rename ρ.models

/-- A model under new ids, without its overrides. -/
structure ShapeRenamed (m n : Model) : Prop where
  name : n.name = m.name
  fields : n.fields = m.fields.map (·.rename ρ.models)
  field? : ∀ name, n.field? name = m.field? name
  method? : ∀ name, n.method? name = (m.method? name).map ρ.functions

/-- `q` has the definitions of `p` under new ids, as far as lowering looks at them. -/
structure Similar (p q : Program) : Prop where
  constant? : ∀ name, q.constant? name = p.constant? name
  function? : ∀ name, q.function? name = (p.function? name).map ρ.functions
  model? : ∀ name, q.model? name = (p.model? name).map ρ.models
  constants : ∀ {id k}, p.getConstant? id = some k →
    ∃ k', q.getConstant? id = some k' ∧ k'.type = k.type.rename ρ.models
  functions : ∀ {id f}, p.getFunction? id = some f →
    ∃ g, q.getFunction? (ρ.functions id) = some g ∧ SignatureRenamed ρ f g
  models : ∀ {id m}, p.getModel? id = some m →
    ∃ n, q.getModel? (ρ.models id) = some n ∧ ShapeRenamed ρ m n

/-- Some locals have their new ids in `q`. -/
def Carries (p q : Program) (ids : List LocalId) : Prop :=
  ∀ id ∈ ids, ∃ l, p.getLocal? id = some l ∧ q.getLocal? (ρ.locals id) = some (l.rename ρ.models)

theorem Carries.append {ρ : Renaming} {p q : Program} {ids ids' : List LocalId}
    (h : Carries ρ p q ids) (h' : Carries ρ p q ids') : Carries ρ p q (ids ++ ids') :=
  List.forall_mem_append.mpr ⟨h, h'⟩

theorem Carries.grows {ρ : Renaming} {p p' q q' : Program} {ids : List LocalId}
    (h : Carries ρ p q ids) (hp : p.Grows p') (hq : q.Grows q') : Carries ρ p' q' ids := by
  intro id hid
  obtain ⟨l, hl, hl'⟩ := h id hid
  exact ⟨l, hp.locals hl, hq.locals hl'⟩

section Similar

variable {ρ : Renaming} {p q : Program} (h : Similar ρ p q)

include h

/-- Bodies, overrides and locals do not matter, and neither do the new ids of locals. -/
theorem Similar.of_stripped {p' q' : Program} (hp : p'.stripped = p.stripped)
    (hq : q'.stripped = q.stripped) (locals : LocalId → LocalId) :
    Similar { ρ with locals } p' q' := by
  obtain ⟨hconstants, hnames⟩ := Program.constants_of_stripped hp
  obtain ⟨hconstants', hnames'⟩ := Program.constants_of_stripped hq
  refine ⟨?_, ?_, ?_, ?_, ?_, ?_⟩
  · intro name
    have hname := h.constant? name
    unfold Program.constant? at hname ⊢
    rw [hnames, hnames']
    exact hname
  · intro name
    rw [← function?_stripped p', ← function?_stripped q', hp, hq, function?_stripped,
      function?_stripped]
    exact h.function? name
  · intro name
    rw [← model?_stripped p', ← model?_stripped q', hp, hq, model?_stripped, model?_stripped]
    exact h.model? name
  · intro id k hk
    unfold Program.getConstant? at hk ⊢
    rw [hconstants] at hk
    rw [hconstants']
    exact h.constants hk
  · intro id f hf
    obtain ⟨f', hf', hsame⟩ := getFunction?_of_stripped hp hf
    obtain ⟨g', hg', hrenamed⟩ := h.functions hf'
    obtain ⟨g, hg, hsame'⟩ := getFunction?_of_stripped hq.symm hg'
    have hf := Function.SameSignature.of_stripped hsame
    have hg' := Function.SameSignature.of_stripped hsame'
    refine ⟨g, hg, hg'.name.trans (hrenamed.name.trans hf.name), ?_, ?_⟩
    · rw [hg'.parameters, hrenamed.parameters, hf.parameters]
    · rw [hg'.returnType, hrenamed.returnType, hf.returnType]
  · intro id m hm
    obtain ⟨m', hm', hsame⟩ := getModel?_of_stripped hp hm
    obtain ⟨n', hn', hrenamed⟩ := h.models hm'
    obtain ⟨n, hn, hsame'⟩ := getModel?_of_stripped hq.symm hn'
    obtain ⟨hname, hfields, _, hfieldMap, hmethodMap⟩ := Model.same_of_stripped hsame
    obtain ⟨hname', hfields', _, hfieldMap', hmethodMap'⟩ := Model.same_of_stripped hsame'
    refine ⟨n, hn, hname'.trans (hrenamed.name.trans hname), ?_, ?_, ?_⟩
    · rw [hfields', hrenamed.fields, hfields]
    · intro name
      have hfield := hrenamed.field? name
      unfold Model.field? at hfield ⊢
      rw [hfieldMap', hfield, hfieldMap]
    · intro name
      have hmethod := hrenamed.method? name
      unfold Model.method? at hmethod ⊢
      rw [hmethodMap', hmethod, hmethodMap]

/-! ### What definitions are -/

variable {d : Definition} {t t' : Ty} {callable : Callable} {name : String} {scope : Scope}
  {function : FunctionId}

theorem Similar.definitionType? (hlocals : ∀ id, d = .binding id → Carries ρ p q [id])
    (hd : p.definitionType? d = some t) :
    q.definitionType? (d.rename ρ) = some (t.rename ρ.models) := by
  cases d with
  | constant id =>
    obtain ⟨k, hk, rfl⟩ := Option.map_eq_some_iff.mp hd
    obtain ⟨k', hk', htype⟩ := h.constants hk
    exact Option.map_eq_some_iff.mpr ⟨k', hk', htype⟩
  | argument id i =>
    obtain ⟨x, hx, rfl⟩ := Option.map_eq_some_iff.mp hd
    obtain ⟨f, hf, hi⟩ := Option.bind_eq_some_iff.mp hx
    obtain ⟨g, hg, hrenamed⟩ := h.functions hf
    refine Option.map_eq_some_iff.mpr
      ⟨x.rename ρ.models, Option.bind_eq_some_iff.mpr ⟨g, hg, ?_⟩, rfl⟩
    rw [hrenamed.parameters, List.getElem?_map, hi]
    rfl
  | field id i =>
    obtain ⟨x, hx, rfl⟩ := Option.map_eq_some_iff.mp hd
    obtain ⟨m, hm, hi⟩ := Option.bind_eq_some_iff.mp hx
    obtain ⟨n, hn, hrenamed⟩ := h.models hm
    refine Option.map_eq_some_iff.mpr
      ⟨x.rename ρ.models, Option.bind_eq_some_iff.mpr ⟨n, hn, ?_⟩, rfl⟩
    rw [hrenamed.fields, List.getElem?_map, hi]
    rfl
  | binding id =>
    obtain ⟨l, hl, rfl⟩ := Option.map_eq_some_iff.mp hd
    obtain ⟨l', hl', hrenamed⟩ := hlocals id rfl id List.mem_cons_self
    cases hl.symm.trans hl'
    exact Option.map_eq_some_iff.mpr ⟨_, hrenamed, rfl⟩

theorem Similar.callableReturnType? (ht : p.callableReturnType? callable = some t) :
    q.callableReturnType? (callable.rename ρ) = some (t.rename ρ.models) := by
  cases callable with
  | function id =>
    obtain ⟨f, hf, rfl⟩ := Option.map_eq_some_iff.mp ht
    obtain ⟨g, hg, hrenamed⟩ := h.functions hf
    exact Option.map_eq_some_iff.mpr ⟨g, hg, hrenamed.returnType⟩
  | equality id | hashing id =>
    cases ht
    rfl

theorem Similar.callableName? (hname : p.callableName? callable = some name) :
    q.callableName? (callable.rename ρ) = some name := by
  cases callable with
  | function id =>
    obtain ⟨f, hf, rfl⟩ := Option.map_eq_some_iff.mp hname
    obtain ⟨g, hg, hrenamed⟩ := h.functions hf
    exact Option.map_eq_some_iff.mpr ⟨g, hg, hrenamed.name⟩
  | equality id | hashing id =>
    obtain ⟨m, hm, rfl⟩ := Option.map_eq_some_iff.mp hname
    obtain ⟨n, hn, hrenamed⟩ := h.models hm
    exact Option.map_eq_some_iff.mpr ⟨n, hn, by rw [hrenamed.name]⟩

/-! ### What names stand for -/

theorem Similar.lowerType {t : Syntax.TypeExpr} (ht : lowerType p t = .ok t') :
    Lowering.lowerType q t = .ok (t'.rename ρ.models) := by
  induction t generalizing t' with
  | bool | int | rune | string | void =>
    cases ht
    rfl
  | list item ih | set item ih =>
    simp only [Lowering.lowerType, Result.bind_eq_ok, requireValueType_eq_ok,
      Result.pure_eq_ok] at ht ⊢
    obtain ⟨s, hs, _, ⟨hvalue, rfl⟩, rfl⟩ := ht
    exact ⟨_, ih hs, _, ⟨Ty.rename_ne_void hvalue, rfl⟩, rfl⟩
  | map key value ihk ihv =>
    simp only [Lowering.lowerType, Result.bind_eq_ok, requireValueType_eq_ok,
      Result.pure_eq_ok] at ht ⊢
    obtain ⟨k, hk, _, ⟨hkey, rfl⟩, v, hv, _, ⟨hvalue, rfl⟩, rfl⟩ := ht
    exact ⟨_, ihk hk, _, ⟨Ty.rename_ne_void hkey, rfl⟩, _, ihv hv, _,
      ⟨Ty.rename_ne_void hvalue, rfl⟩, rfl⟩
  | model name =>
    simp only [Lowering.lowerType, Result.bind_eq_ok, resolveModel_eq_ok, Result.pure_eq_ok] at ht ⊢
    obtain ⟨id, hid, rfl⟩ := ht
    exact ⟨ρ.models id, by rw [h.model?, hid]; rfl, rfl⟩

theorem Similar.lowerValueType {t : Syntax.TypeExpr} (ht : lowerValueType p t = .ok t') :
    Lowering.lowerValueType q t = .ok (t'.rename ρ.models) := by
  obtain ⟨ht, hvalue⟩ := lowerValueType_eq_ok.mp ht
  exact lowerValueType_eq_ok.mpr ⟨h.lowerType ht, Ty.rename_ne_void hvalue⟩

/-- A frame gives a name to the same definition. -/
theorem Similar.find? {frame : Frame} {d : Option Definition} (hd : frame.find? p name = .ok d) :
    (frame.rename ρ).find? q name = .ok (d.map (·.rename ρ)) := by
  have single {b : Binding}
      (hd : (.ok (if b.name = name then some (.binding b.id) else none) :
        Checked (Option Definition)) = .ok d) :
      (.ok (if (b.rename ρ).name = name then some (.binding (b.rename ρ).id) else none) :
        Checked (Option Definition)) = .ok (d.map (·.rename ρ)) := by
    cases hd
    rw [apply_ite (Option.map (Definition.rename ρ))]
    rfl
  cases frame with
  | program | hashing _ =>
    cases hd
    rfl
  | model id =>
    simp only [Frame.find?, Frame.rename, Result.bind_eq_ok, Checked.ofOption_eq_ok,
      Result.pure_eq_ok] at hd ⊢
    obtain ⟨m, hm, rfl⟩ := hd
    obtain ⟨n, hn, hrenamed⟩ := h.models hm
    refine ⟨n, hn, ?_⟩
    rw [hrenamed.field?, Option.map_map]
    rfl
  | function id =>
    simp only [Frame.find?, Frame.rename, Result.bind_eq_ok, Checked.ofOption_eq_ok,
      Result.pure_eq_ok] at hd ⊢
    obtain ⟨f, hf, rfl⟩ := hd
    obtain ⟨g, hg, hrenamed⟩ := h.functions hf
    refine ⟨g, hg, ?_⟩
    rw [hrenamed.parameters, List.findIdx?_map, Option.map_map]
    rfl
  | equality id other => exact single hd
  | forEach item => exact single hd
  | block bindings =>
    cases hd
    rw [Frame.rename, Frame.find?, List.find?_map, Option.map_map, Option.map_map]
    rfl
  | forLoop binding =>
    cases binding with
    | none =>
      cases hd
      rfl
    | some b => exact single hd

theorem Similar.resolve (hd : scope.resolve p name = .ok d) :
    (scope.rename ρ).resolve q name = .ok (d.rename ρ) := by
  induction scope with
  | nil =>
    have hname := h.constant? name
    simp only [Scope.resolve, Scope.rename, List.map_nil] at hd ⊢
    cases hk : p.constant? name with
    | none =>
      rw [hk] at hd
      cases hd
    | some id =>
      rw [hk] at hd hname
      cases hd
      rw [hname]
      rfl
  | cons frame outer ih =>
    simp only [Scope.resolve, Scope.rename, List.map_cons, Result.bind_eq_ok] at hd ⊢
    obtain ⟨found, hfound, hd⟩ := hd
    refine ⟨_, h.find? hfound, ?_⟩
    cases found with
    | none => exact ih hd
    | some d' =>
      cases hd
      rfl

theorem Similar.resolveFunction {receiver : Option Expr}
    (hf : resolveFunction p scope name = .ok (receiver, function)) :
    Lowering.resolveFunction q (scope.rename ρ) name =
      .ok (renameReceiver ρ receiver, ρ.functions function) := by
  have hmodel := scope.enclosingModel?_rename (ρ := ρ)
  refine resolveFunction_iff.mpr ?_
  rw [hmodel]
  obtain ⟨id, m, hid, hm, hmethod, rfl⟩ | ⟨hnone, hfound, rfl⟩ := resolveFunction_iff.mp hf
  · obtain ⟨n, hn, hrenamed⟩ := h.models hm
    refine .inl ⟨ρ.models id, n, by rw [hid]; rfl, hn, ?_, rfl⟩
    rw [hrenamed.method?, hmethod]
    rfl
  · refine .inr ⟨?_, by rw [h.function?, hfound]; rfl, rfl⟩
    intro id' hid'
    obtain ⟨id, hid, rfl⟩ := Option.map_eq_some_iff.mp hid'
    obtain ⟨m, hm, hmethod⟩ := hnone id hid
    obtain ⟨n, hn, hrenamed⟩ := h.models hm
    exact ⟨n, hn, by rw [hrenamed.method?, hmethod]; rfl⟩

theorem Similar.resolveMethod (hf : resolveMethod p t name = .ok function) :
    Lowering.resolveMethod q (t.rename ρ.models) name = .ok (ρ.functions function) := by
  obtain ⟨id, m, rfl, hm, hmethod⟩ := resolveMethod_eq_ok.mp hf
  obtain ⟨n, hn, hrenamed⟩ := h.models hm
  refine resolveMethod_eq_ok.mpr ⟨ρ.models id, n, rfl, hn, ?_⟩
  rw [hrenamed.method?, hmethod]
  rfl

theorem Similar.resolveField {output : Ty} {field : FieldRef}
    (hf : resolveField p t name = .ok (field, output)) :
    Lowering.resolveField q (t.rename ρ.models) name =
      .ok (field.rename ρ.models, output.rename ρ.models) := by
  obtain ⟨rfl, m, f, hm, hi, hfield, rfl⟩ := resolveField_iff.mp hf
  obtain ⟨n, hn, hrenamed⟩ := h.models hm
  refine resolveField_iff.mpr ⟨rfl, n, f.rename ρ.models, hn, ?_, ?_, rfl⟩
  · rw [hrenamed.field?]
    exact hi
  · rw [hrenamed.fields, List.getElem?_map, FieldRef.rename, hfield]
    rfl

end Similar

end Scribe.Lowering
