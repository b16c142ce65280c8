import Mathlib.Data.List.Pairwise
import Scribe.Proofs.Layout

/-!
# What the tables of a program record

A program that is built by declarations, from the empty one on, records all of them and nothing
else. The log of a sequence of declarations has one entry for each that was accepted, with the id it
was answered with. Each table lists the entries of its kind in the order of the log,
the name maps list what the tables do, and two entries never claim the same name in the same name
space (`Logged`). What an id denotes (`Entry.Denoted`), what a name is found to be, which names are
refused and which functions are free follows from these facts (`declarations_recorded`).
-/

namespace Scribe.Core

open Scribe.Lowering
open Scribe.Lowering.Step (bind_of_ok bind_of_error)

/-! ## Declarations and their log -/

/-- A request to add to a program. -/
inductive Declaration where
  | constant (c : Constant)
  | function (f : Function)
  | model (name : String)
  | field (model : ModelId) (f : Field)
  /-- Takes an id for a function without giving it a name. -/
  | owned (f : Function)
  /-- Makes a function known as a method of a model. -/
  | method (model : ModelId) (name : String) (function : FunctionId)
  | binding (l : Local)

/-- What was declared, with the id that was given to it. -/
inductive Entry where
  | constant (id : ConstantId) (c : Constant)
  | function (id : FunctionId) (f : Function)
  | model (id : ModelId) (name : String)
  | field (model : ModelId) (index : Nat) (f : Field)
  | owned (id : FunctionId) (f : Function)
  | method (model : ModelId) (name : String) (function : FunctionId)
  | binding (id : LocalId) (l : Local)

/-- A set of definitions whose names differ. -/
inductive NameSpace where
  /-- Constants and free functions. -/
  | values
  | models
  /-- The fields and methods of a model. -/
  | members (model : ModelId)
  deriving DecidableEq

namespace Declaration

/-- Makes a declaration. -/
def run : Declaration → Build Entry
  | .constant c => do return .constant (← Build.declareConstant c) c
  | .function f => do return .function (← Build.declareFunction f) f
  | .model name => do return .model (← Build.declareModel name) name
  | .field id f => do return .field id (← Build.declareField id f) f
  | .owned f => do return .owned (← Build.allocMethod f) f
  | .method id name g => do
    Build.declareMethod id name g
    return .method id name g
  | .binding l => do return .binding (← Build.allocLocal l) l

/-- The name that a declaration claims. -/
def key? : Declaration → Option (NameSpace × String)
  | .constant c => some (.values, c.name)
  | .function f => some (.values, f.name)
  | .model name => some (.models, name)
  | .field id f => some (.members id, f.name)
  | .method id name _ => some (.members id, name)
  | .owned _ | .binding _ => none

/-- The model whose members are added to. -/
def model? : Declaration → Option ModelId
  | .field id _ | .method id _ _ => some id
  | .constant _ | .function _ | .model _ | .owned _ | .binding _ => none

/-- Makes a declaration and writes it down if it is accepted. -/
def record (s : List Entry × Program) (d : Declaration) : List Entry × Program :=
  match d.run s.2 with
  | .ok e p => (s.1 ++ [e], p)
  | .error _ p => (s.1, p)

/-- Makes declarations one after the other. -/
def recordAll (s : List Entry × Program) (ds : List Declaration) : List Entry × Program :=
  ds.foldl record s

/-- The log of declarations from the empty program on, and the program that they make. -/
def history (name : String) (ds : List Declaration) : List Entry × Program :=
  recordAll ([], { name }) ds

end Declaration

namespace Entry

/-- The name that was claimed. -/
def key? : Entry → Option (NameSpace × String)
  | .constant _ c => some (.values, c.name)
  | .function _ f => some (.values, f.name)
  | .model _ name => some (.models, name)
  | .field id _ f => some (.members id, f.name)
  | .method id name _ => some (.members id, name)
  | .owned .. | .binding .. => none

/-- The id of an entry stands for what was declared. A function is among the free ones if it was
declared as one, and not if it only took an id. -/
def Denoted (p : Program) : Entry → Prop
  | .constant id c => p.getConstant? id = some c
  | .function id f => p.getFunction? id = some f ∧ id ∈ p.freeFunctions
  | .model id name => ∃ m, p.getModel? id = some m ∧ m.name = name
  | .field id index f => p.getField? id index = some f
  | .owned id f => p.getFunction? id = some f ∧ id ∉ p.freeFunctions
  | .method id name g => ∃ m, p.getModel? id = some m ∧ m.method? name = some g
  | .binding id l => p.getLocal? id = some l

/-! ### What an entry adds to the tables -/

def constant? : Entry → Option (Constant × Nat)
  | .constant id c => some (c, id.index)
  | _ => none

def function? : Entry → Option (Function × Nat)
  | .function id f | .owned id f => some (f, id.index)
  | _ => none

def functionName? : Entry → Option (String × FunctionId)
  | .function id f => some (f.name, id)
  | _ => none

def model? : Entry → Option (String × Nat)
  | .model id name => some (name, id.index)
  | _ => none

def field? (model : ModelId) : Entry → Option (Field × Nat)
  | .field id index f => if id = model then some (f, index) else none
  | _ => none

def method? (model : ModelId) : Entry → Option Method
  | .method id name g => if id = model then some ⟨name, g⟩ else none
  | _ => none

def local? : Entry → Option (Local × Nat)
  | .binding id l => some (l, id.index)
  | _ => none

section Key

variable {e : Entry} {name : String} {model : ModelId}

theorem functionName?_eq_some {id : FunctionId} :
    e.functionName? = some (name, id) ↔ ∃ f, e = .function id f ∧ f.name = name := by
  cases e <;> simp [functionName?, and_comm]

theorem method?_eq_some {x : Method} :
    e.method? model = some x ↔ e = .method model x.name x.function := by
  obtain ⟨name, g⟩ := x
  cases e <;> simp [method?]

theorem key?_eq_values : e.key? = some (.values, name) ↔
    (∃ x, e.constant? = some x ∧ x.1.name = name) ∨ ∃ id, e.functionName? = some (name, id) := by
  cases e <;> simp [key?, constant?, functionName?]

theorem key?_eq_models :
    e.key? = some (.models, name) ↔ ∃ x, e.model? = some x ∧ x.1 = name := by
  cases e <;> simp [key?, model?]

theorem key?_eq_members : e.key? = some (.members model, name) ↔
    (∃ x, e.field? model = some x ∧ x.1.name = name) ∨
      ∃ x, e.method? model = some x ∧ x.name = name := by
  cases e <;> simp [key?, field?, method?]

end Key

end Entry

/-! ## One declaration -/

/-- A name is taken. -/
def Program.Uses (p : Program) : NameSpace → String → Prop
  | .values, name => name ∈ p.valueNames
  | .models, name => name ∈ p.modelMap.names
  | .members id, name => ∃ m, p.getModel? id = some m ∧ name ∈ m.memberNames

/-- What an accepted declaration does to a program, and the entry it is written down with. -/
inductive Declaration.Adds (p : Program) : Declaration → Entry → Program → Prop where
  | constant (c : Constant) :
      Declaration.Adds p (.constant c) (.constant ⟨p.constants.size⟩ c) (p.withConstants [c])
  | function (f : Function) :
      Declaration.Adds p (.function f) (.function ⟨p.functions.size⟩ f) (p.withFree [f])
  | model (name : String) :
      Declaration.Adds p (.model name) (.model ⟨p.models.size⟩ name) (p.withModels [name])
  | field {id m} (hm : p.getModel? id = some m) (f : Field) :
      Declaration.Adds p (.field id f) (.field id m.fields.length f)
        (p.withModel id (m.addFields [f]))
  | owned (f : Function) :
      Declaration.Adds p (.owned f) (.owned ⟨p.functions.size⟩ f) (p.withFunctions [f])
  | method {id m} (hm : p.getModel? id = some m) (name : String) (g : FunctionId) :
      Declaration.Adds p (.method id name g) (.method id name g)
        (p.withModel id (m.addMethods [⟨name, g⟩]))
  | binding (l : Local) :
      Declaration.Adds p (.binding l) (.binding ⟨p.locals.size⟩ l) (p.withLocal l)

/-- How a declaration ends. -/
inductive Declaration.Outcome (p : Program) (d : Declaration) : Prop where
  | unknown (id : ModelId) (hmodel : d.model? = some id) (hid : p.getModel? id = none)
      (hrun : d.run p = .error (.unknownModel id) p)
  | taken (space : NameSpace) (name : String) (hkey : d.key? = some (space, name))
      (huses : p.Uses space name) (hrun : d.run p = .error (.duplicate name) p)
  | added (hfree : ∀ space name, d.key? = some (space, name) → ¬p.Uses space name) (e : Entry)
      (q : Program) (hadds : Declaration.Adds p d e q) (hrun : d.run p = .ok e q)

section Outcome

variable {p q : Program} {d : Declaration} {e : Entry}

/-- A declaration that fails exactly if its name is taken. -/
theorem Declaration.Outcome.of_key {space : NameSpace} {name : String}
    (hkey : d.key? = some (space, name)) (hadds : Declaration.Adds p d e q)
    (hok : ¬p.Uses space name → d.run p = .ok e q)
    (herror : p.Uses space name → d.run p = .error (.duplicate name) p) :
    Declaration.Outcome p d := by
  by_cases huses : p.Uses space name
  · exact .taken space name hkey huses (herror huses)
  · refine .added ?_ e q hadds (hok huses)
    rw [hkey]
    rintro _ _ ⟨⟩
    exact huses

theorem throw_of_test {α β : Type} {test : Prop} [Decidable test] {reason : BuildError}
    {f : β → Build α} {x : Build α} (h : test) :
    (if test then throw reason >>= f else x) p = .error reason p := by
  rw [if_pos h]
  rfl

theorem hasValue_of_mem {name : String} (h : name ∈ p.valueNames) : p.hasValue name = true :=
  Bool.not_eq_false _ ▸ mt Program.hasValue_eq_false.mp (not_not_intro h)

theorem hasMember_of_mem {m : Model} {name : String} (h : name ∈ m.memberNames) :
    m.hasMember name = true :=
  Bool.not_eq_false _ ▸ mt Model.hasMember_eq_false.mp (not_not_intro h)

theorem model_eq_error {id : ModelId} (hid : p.getModel? id = none) :
    Build.model id p = .error (.unknownModel id) p := by
  refine (bind_of_ok rfl).trans ?_
  rw [hid]
  rfl

end Outcome

theorem Declaration.outcome (p : Program) (d : Declaration) : Declaration.Outcome p d := by
  cases d with
  | constant c =>
    refine .of_key rfl (.constant c)
      (fun hfree => bind_of_ok (declareConstant_eq_ok.mpr ⟨hfree, rfl, rfl⟩)) fun huses => ?_
    exact bind_of_error ((bind_of_ok rfl).trans (throw_of_test (hasValue_of_mem huses)))
  | function f =>
    refine .of_key rfl (.function f)
      (fun hfree => bind_of_ok (declareFunction_eq_ok.mpr ⟨hfree, rfl, rfl⟩)) fun huses => ?_
    exact bind_of_error ((bind_of_ok rfl).trans (throw_of_test (hasValue_of_mem huses)))
  | model name =>
    refine .of_key rfl (.model name)
      (fun hfree => bind_of_ok (declareModel_eq_ok.mpr ⟨hfree, rfl, rfl⟩)) fun huses => ?_
    refine bind_of_error ((bind_of_ok rfl).trans (throw_of_test ?_))
    exact Option.isSome_iff_ne_none.mpr (mt Program.model?_eq_none.mp (not_not_intro huses))
  | field id f =>
    cases hm : p.getModel? id with
    | none => exact .unknown id rfl hm (bind_of_error (bind_of_error (model_eq_error hm)))
    | some m =>
      refine .of_key rfl (.field hm f) (fun hfree => bind_of_ok ((declareField_eq_ok hm).mpr
        ⟨fun h => hfree ⟨m, hm, h⟩, rfl, rfl⟩)) ?_
      rintro ⟨m', hm', huses⟩
      cases hm.symm.trans hm'
      exact bind_of_error ((bind_of_ok (model_eq_ok.mpr ⟨hm, rfl⟩)).trans
        (throw_of_test (hasMember_of_mem huses)))
  | owned f =>
    exact .added (by rintro _ _ ⟨⟩) _ _ (.owned f)
      (bind_of_ok (allocMethod_eq_ok.mpr ⟨rfl, rfl⟩))
  | method id name g =>
    cases hm : p.getModel? id with
    | none => exact .unknown id rfl hm (bind_of_error (bind_of_error (model_eq_error hm)))
    | some m =>
      refine .of_key rfl (.method hm name g) (fun hfree => bind_of_ok (a := ())
        ((declareMethod_eq_ok hm).mpr ⟨fun h => hfree ⟨m, hm, h⟩, rfl⟩)) ?_
      rintro ⟨m', hm', huses⟩
      cases hm.symm.trans hm'
      exact bind_of_error ((bind_of_ok (model_eq_ok.mpr ⟨hm, rfl⟩)).trans
        (throw_of_test (hasMember_of_mem huses)))
  | binding l => exact .added (by rintro _ _ ⟨⟩) _ _ (.binding l) rfl

/-! ## The log of a program -/

/-- A table of a model, empty if the model is not there. -/
def Program.ofModel {β : Type} (p : Program) (part : Model → List β) (id : ModelId) : List β :=
  (p.getModel? id).elim [] part

/-- The name maps of a model list what its tables do. -/
structure Model.Listed (m : Model) : Prop where
  fields : m.fieldMap = .ofNames (fun i => i) 0 (m.fields.map (·.name))
  methods : m.methodMap = m.methods.map fun x => (x.name, x.function)

/-- The tables of a program list the entries of a log in the order of the log, the name maps list
what the tables do, and the entries claim different names. -/
structure Logged (log : List Entry) (p : Program) : Prop where
  distinct : log.Pairwise fun e e' => ∀ key, e.key? = some key → e'.key? ≠ some key
  constants : p.constants.toList.zipIdx = log.filterMap Entry.constant?
  functions : p.functions.toList.zipIdx = log.filterMap Entry.function?
  models : p.modelNames.zipIdx = log.filterMap Entry.model?
  locals : p.locals.toList.zipIdx = log.filterMap Entry.local?
  fields : ∀ id, (p.ofModel (·.fields) id).zipIdx = log.filterMap (Entry.field? id)
  methods : ∀ id, p.ofModel (·.methods) id = log.filterMap (Entry.method? id)
  constantMap : p.constantMap = .ofNames ConstantId.mk 0 (p.constants.toList.map (·.name))
  functionMap : p.functionMap = log.filterMap Entry.functionName?
  modelMap : p.modelMap = .ofNames ModelId.mk 0 p.modelNames
  members : ∀ {id m}, p.getModel? id = some m → m.Listed

theorem Logged.empty (name : String) : Logged [] { name } where
  distinct := .nil
  constants := rfl
  functions := rfl
  models := rfl
  locals := rfl
  fields _ := rfl
  methods _ := rfl
  constantMap := rfl
  functionMap := rfl
  modelMap := rfl
  members := by rintro id m ⟨⟩

section Rows

variable {p q : Program} {log : List Entry} {e : Entry} {β : Type} {id id' : ModelId} {m0 m : Model}
  {part : Model → List β}

theorem ofModel_of_some (hm : p.getModel? id = some m) : p.ofModel part id = part m := by
  rw [Program.ofModel, hm]
  rfl

theorem getModel?_withModels (p : Program) (name : String) (id : ModelId) :
    (p.withModels [name]).getModel? id = (p.models.push { name })[id.index]? := by
  rw [Array.push_eq_append]
  rfl

theorem ofModel_withModels {name : String} (hpart : part { name } = []) :
    (p.withModels [name]).ofModel part id = p.ofModel part id := by
  rw [Program.ofModel, Program.ofModel, getModel?_withModels, Array.getElem?_push]
  split
  · next hid =>
    have hnone : p.getModel? id = none := by rw [Program.getModel?, hid, Array.getElem?_size]
    rw [hnone, Option.elim, Option.elim, hpart]
  · rfl

theorem ofModel_withModel (hm : p.getModel? id = some m0) : (p.withModel id m).ofModel part id' =
    if id' = id then part m else p.ofModel part id' := by
  rw [Program.ofModel, getModel?_withModel hm]
  split <;> rfl

theorem ofModel_withModel_same (hm : p.getModel? id = some m0) (hpart : part m = part m0) :
    (p.withModel id m).ofModel part id' = p.ofModel part id' := by
  rw [ofModel_withModel hm]
  split
  · next hid => rw [hid, ofModel_of_some hm, hpart]
  · rfl

theorem modelNames_withModel (hm : p.getModel? id = some m0) (hname : m.name = m0.name) :
    (p.withModel id m).modelNames = p.modelNames := by
  refine List.ext_getElem? fun i => ?_
  simp only [Program.modelNames, List.getElem?_map, Array.getElem?_toList]
  rw [Program.withModel, getElem?_set_of_some hm]
  split
  · next hi =>
    rw [hi, show p.models[id.index]? = some m0 from hm, Option.map_some, Option.map_some, hname]
  · rfl

theorem filterMap_concat (row : Entry → Option β) :
    (log ++ [e]).filterMap row = log.filterMap row ++ (row e).toList := by
  cases h : row e <;> simp [h]

/-- A row that is added to a table. -/
theorem rows_concat {row : Entry → Option β} {rows : List β} {x : β} (h : rows = log.filterMap row)
    (he : row e = some x) : rows ++ [x] = (log ++ [e]).filterMap row := by
  rw [filterMap_concat, ← h, he]
  rfl

theorem rows_same {row : Entry → Option β} {rows : List β} (h : rows = log.filterMap row)
    (he : row e = none) : rows = (log ++ [e]).filterMap row := by
  rw [filterMap_concat, ← h, he]
  exact (List.append_nil _).symm

variable {α : Type} {row : Entry → Option (α × Nat)} {xs : List α}
  (h : xs.zipIdx = log.filterMap row)

include h

theorem map_of_rows {γ : Type} (f : α → γ) : xs.map f = (log.filterMap row).map (f ·.1) := by
  rw [← h]
  nth_rewrite 1 [← List.zipIdx_map_fst 0 xs]
  exact List.map_map

/-- What stands in a table is in the log. -/
theorem mem_log_iff {x : α} {i : Nat} (hrow : row e = some (x, i))
    (hinv : ∀ e', row e' = some (x, i) → e' = e) : e ∈ log ↔ xs[i]? = some x := by
  rw [← List.mk_mem_zipIdx_iff_getElem?, h, List.mem_filterMap]
  constructor
  · exact fun he => ⟨e, he, hrow⟩
  · rintro ⟨e', he', hrow'⟩
    exact hinv e' hrow' ▸ he'

end Rows

/-- Two entries of a log with the same key are one, if keys are not repeated. -/
theorem eq_of_key {log : List Entry} {e e' : Entry} {κ : Type} {f : Entry → Option κ} {k : κ}
    (h : log.Pairwise fun e e' => ∀ k, f e = some k → f e' ≠ some k) (he : e ∈ log)
    (he' : e' ∈ log) (hkey : f e = some k) (hkey' : f e' = some k) : e = e' := by
  by_contra hne
  have hsymm : Std.Symm fun e e' : Entry => ∀ k, f e = some k → f e' ≠ some k :=
    ⟨fun _ _ h k hk hk' => h k hk' hk⟩
  exact h.forall he he' hne k hkey hkey'

namespace Logged

variable {p q : Program} {log : List Entry} {d : Declaration} {e e' : Entry} {name : String}

section

variable (h : Logged log p)

include h

/-- A name is taken exactly if an entry of the log has claimed it. -/
theorem uses_iff {space : NameSpace} :
    p.Uses space name ↔ ∃ e ∈ log, e.key? = some (space, name) := by
  cases space with
  | values =>
    rw [Program.Uses, Program.valueNames, List.mem_append, h.constantMap, NameMap.names_ofNames,
      map_of_rows h.constants, h.functionMap]
    simp only [Entry.key?_eq_values, NameMap.names, List.mem_map, List.mem_filterMap]
    grind
  | models =>
    rw [Program.Uses, h.modelMap, NameMap.names_ofNames, ← List.map_id p.modelNames,
      map_of_rows h.models]
    simp only [Entry.key?_eq_models, List.mem_map, List.mem_filterMap]
    grind
  | members id =>
    have hnames : p.Uses (.members id) name ↔ name ∈ (p.ofModel (·.fields) id).map (·.name) ∨
        name ∈ (p.ofModel (·.methods) id).map (·.name) := by
      cases hm : p.getModel? id with
      | none => simp [Program.Uses, Program.ofModel, hm]
      | some m =>
        obtain ⟨hfields, hmethods⟩ := h.members hm
        simp only [Program.Uses, Program.ofModel, hm, Model.memberNames, hfields, hmethods,
          NameMap.names_ofNames, Option.some.injEq, exists_eq_left', List.mem_append, Option.elim]
        rw [NameMap.names, List.map_map]
        rfl
    rw [hnames, map_of_rows (h.fields id), h.methods]
    simp only [Entry.key?_eq_members, List.mem_map, List.mem_filterMap]
    grind

/-- The names of the entries of one kind differ. -/
theorem nodup_names {β : Type} {row : Entry → Option β} {nameOf : β → String} {space : NameSpace}
    (hkey : ∀ {e x}, row e = some x → e.key? = some (space, nameOf x)) :
    ((log.filterMap row).map nameOf).Nodup := by
  refine List.pairwise_map.mpr (List.pairwise_filterMap.mpr (h.distinct.imp ?_))
  intro e e' hne x hx y hy heq
  exact hne _ (hkey hx) (heq ▸ hkey hy)

/-! ### Functions -/

theorem mem_freeFunctions {id : FunctionId} :
    id ∈ p.freeFunctions ↔ ∃ f, .function id f ∈ log := by
  rw [Program.freeFunctions, h.functionMap, List.mem_map]
  simp only [List.mem_filterMap, Prod.exists, Entry.functionName?_eq_some]
  grind

theorem function?_eq_some {id : FunctionId} :
    p.function? name = some id ↔ ∃ f, .function id f ∈ log ∧ f.name = name := by
  have hnodup : ((log.filterMap Entry.functionName?).map (·.1)).Nodup :=
    h.nodup_names fun hx => Entry.key?_eq_values.mpr (.inr ⟨_, hx⟩)
  rw [Program.function?, h.functionMap, lookup_eq_some_iff_mem hnodup, List.mem_filterMap]
  simp only [Entry.functionName?_eq_some]
  grind

/-- Functions are numbered in the order of the log, whether they are free or owned. -/
theorem increasing : log.Pairwise fun e e' =>
    ∀ x, e.function? = some x → ∀ y, e'.function? = some y → x.2 < y.2 := by
  refine List.pairwise_filterMap.mp ?_
  rw [← h.functions]
  refine List.pairwise_map.mp ?_
  rw [List.zipIdx_map_snd]
  exact List.pairwise_lt_range'

theorem ordered : p.freeFunctions.Pairwise fun id id' => id.index < id'.index := by
  rw [Program.freeFunctions, h.functionMap]
  refine List.pairwise_map.mpr (List.pairwise_filterMap.mpr (h.increasing.imp ?_))
  intro e e' hlt x hx y hy
  obtain ⟨f, rfl, _⟩ := Entry.functionName?_eq_some.mp hx
  obtain ⟨g, rfl, _⟩ := Entry.functionName?_eq_some.mp hy
  exact hlt _ rfl _ rfl

/-- An id stands for one function, which is free or owned. -/
theorem eq_of_function? {x y : Function × Nat} (he : e ∈ log) (he' : e' ∈ log)
    (hx : e.function? = some x) (hy : e'.function? = some y) (hid : x.2 = y.2) : e = e' := by
  refine eq_of_key (f := fun e => e.function?.map (·.2)) (h.increasing.imp ?_) he he'
    (congrArg _ hx) ((congrArg _ hy).trans (congrArg some hid.symm))
  intro e e' hlt k hk hk'
  obtain ⟨x, hx, rfl⟩ := Option.map_eq_some_iff.mp hk
  obtain ⟨y, hy, hxy⟩ := Option.map_eq_some_iff.mp hk'
  exact absurd (hlt x hx y hy) (hxy ▸ Nat.lt_irrefl _)

theorem getFunction?_eq_some {id : FunctionId} {f : Function} :
    p.getFunction? id = some f ↔ .function id f ∈ log ∨ .owned id f ∈ log := by
  rw [Program.getFunction?, ← Array.getElem?_toList, ← List.mk_mem_zipIdx_iff_getElem?, h.functions,
    List.mem_filterMap]
  obtain ⟨i⟩ := id
  constructor
  · rintro ⟨e, he, hrow⟩
    cases e <;> cases hrow
    · exact .inl he
    · exact .inr he
  · rintro (he | he)
    · exact ⟨_, he, rfl⟩
    · exact ⟨_, he, rfl⟩

/-! ### Members -/

variable {id : ModelId} {m : Model} (hm : p.getModel? id = some m)

include hm

theorem field?_eq_some {i : Nat} :
    m.field? name = some i ↔ ∃ f, m.fields[i]? = some f ∧ f.name = name := by
  have hrows := h.fields id
  rw [ofModel_of_some hm] at hrows
  have hnodup : (m.fields.map (·.name)).Nodup := by
    rw [map_of_rows hrows]
    exact h.nodup_names fun hx => Entry.key?_eq_members.mpr (.inl ⟨_, hx, rfl⟩)
  have hindexes : m.fieldMap.Indexes fun name i => ∃ f, m.fields[i]? = some f ∧ f.name = name :=
    (h.members hm).fields ▸ NameMap.indexes_ofNames (fun _ => rfl) (fun _ => rfl) hnodup
  exact hindexes.lookup_eq_some

theorem methods_eq : m.methods = log.filterMap (·.method? id) :=
  (ofModel_of_some hm).symm.trans (h.methods id)

theorem mem_methods {x : Method} : x ∈ m.methods ↔ .method id x.name x.function ∈ log := by
  rw [h.methods_eq hm, List.mem_filterMap]
  simp only [Entry.method?_eq_some, exists_eq_right]

theorem method?_eq_some {g : FunctionId} : m.method? name = some g ↔ .method id name g ∈ log := by
  have hnodup : (m.methods.map (·.name)).Nodup := by
    rw [h.methods_eq hm]
    exact h.nodup_names fun hx => Entry.key?_eq_members.mpr (.inr ⟨_, hx, rfl⟩)
  rw [Model.method?, (h.members hm).methods, lookup_eq_some_iff_mem (by rwa [List.map_map]),
    List.mem_map, ← h.mem_methods hm (x := ⟨name, g⟩)]
  constructor
  · rintro ⟨x, hx, ⟨⟩⟩
    exact hx
  · exact fun hx => ⟨_, hx, rfl⟩

end

/-- What was declared is denoted by its id, and nothing else is denoted. -/
theorem denoted (h : Logged log p) (e : Entry) : e ∈ log ↔ e.Denoted p := by
  cases e with
  | constant id c =>
    rw [Entry.Denoted, Program.getConstant?, ← Array.getElem?_toList]
    obtain ⟨i⟩ := id
    exact mem_log_iff h.constants rfl (by rintro ⟨⟩ ⟨⟩; rfl)
  | function id f =>
    rw [Entry.Denoted, h.getFunction?_eq_some, h.mem_freeFunctions]
    constructor
    · exact fun he => ⟨.inl he, f, he⟩
    · rintro ⟨he | he, g, hg⟩
      · exact he
      · cases h.eq_of_function? he hg rfl rfl rfl
  | owned id f =>
    rw [Entry.Denoted, h.getFunction?_eq_some, h.mem_freeFunctions]
    constructor
    · refine fun he => ⟨.inr he, ?_⟩
      rintro ⟨g, hg⟩
      cases h.eq_of_function? he hg rfl rfl rfl
    · rintro ⟨he | he, hid⟩
      · exact (hid ⟨f, he⟩).elim
      · exact he
  | model id name =>
    have hname : (Entry.model id name).Denoted p ↔ p.modelNames[id.index]? = some name := by
      simp [Entry.Denoted, Program.modelNames, Program.getModel?]
    rw [hname]
    obtain ⟨i⟩ := id
    exact mem_log_iff h.models rfl (by rintro ⟨⟩ ⟨⟩; rfl)
  | field id i f =>
    have hfield : (Entry.field id i f).Denoted p ↔ (p.ofModel (·.fields) id)[i]? = some f := by
      rw [Entry.Denoted, Program.getField?, Program.ofModel]
      cases p.getModel? id <;> simp
    rw [hfield]
    exact mem_log_iff (h.fields id) (if_pos rfl) fun e' => by cases e' <;> grind [Entry.field?]
  | method id name g =>
    constructor
    · intro he
      have hmem : ⟨name, g⟩ ∈ p.ofModel (·.methods) id := by
        rw [h.methods]
        exact List.mem_filterMap.mpr ⟨_, he, if_pos rfl⟩
      cases hm : p.getModel? id with
      | none =>
        rw [Program.ofModel, hm] at hmem
        cases hmem
      | some m => exact ⟨m, hm, (h.method?_eq_some hm).mpr he⟩
    · rintro ⟨m, hm, hg⟩
      exact (h.method?_eq_some hm).mp hg
  | binding id l =>
    rw [Entry.Denoted, Program.getLocal?, ← Array.getElem?_toList]
    obtain ⟨i⟩ := id
    exact mem_log_iff h.locals rfl (by rintro ⟨⟩ ⟨⟩; rfl)

theorem constant?_eq_some (h : Logged log p) {id : ConstantId} :
    p.constant? name = some id ↔ ∃ c, .constant id c ∈ log ∧ c.name = name := by
  have hnodup : (p.constants.toList.map (·.name)).Nodup := by
    rw [map_of_rows h.constants]
    exact h.nodup_names fun hx => Entry.key?_eq_values.mpr (.inl ⟨_, hx, rfl⟩)
  have hindexes : p.constantMap.Indexes fun name id =>
      ∃ c, p.constants.toList[id.index]? = some c ∧ c.name = name :=
    h.constantMap ▸ NameMap.indexes_ofNames (fun _ => rfl) (fun _ => rfl) hnodup
  rw [Program.constant?, hindexes.lookup_eq_some]
  simp only [h.denoted, Entry.Denoted, Program.getConstant?, Array.getElem?_toList]

theorem model?_eq_some (h : Logged log p) {id : ModelId} :
    p.model? name = some id ↔ .model id name ∈ log := by
  have hnodup : p.modelNames.Nodup := by
    rw [← List.map_id p.modelNames, map_of_rows h.models]
    exact h.nodup_names fun hx => Entry.key?_eq_models.mpr ⟨_, hx, rfl⟩
  have hindexes : p.modelMap.Indexes fun name id =>
      ∃ m, p.models.toList[id.index]? = some m ∧ m.name = name :=
    h.modelMap ▸ NameMap.indexes_ofNames (fun _ => rfl) (fun _ => rfl) hnodup
  rw [Program.model?, hindexes.lookup_eq_some, h.denoted, Entry.Denoted, Program.getModel?]
  simp only [Array.getElem?_toList]

/-- No name is both a constant and a free function. -/
theorem values_disjoint (h : Logged log p) (name : String) :
    p.constant? name = none ∨ p.function? name = none := by
  cases hconstant : p.constant? name with
  | none => exact .inl rfl
  | some id =>
    refine .inr (Option.eq_none_iff_forall_ne_some.mpr fun id' hfunction => ?_)
    obtain ⟨c, hc, rfl⟩ := h.constant?_eq_some.mp hconstant
    obtain ⟨f, hf, hname⟩ := h.function?_eq_some.mp hfunction
    cases eq_of_key h.distinct hc hf rfl (congrArg (some <| Prod.mk NameSpace.values ·) hname)

/-- No name is both a field and a method of a model. -/
theorem members_disjoint (h : Logged log p) {id : ModelId} {m : Model}
    (hm : p.getModel? id = some m) (name : String) :
    m.field? name = none ∨ m.method? name = none := by
  cases hfield : m.field? name with
  | none => exact .inl rfl
  | some i =>
    refine .inr (Option.eq_none_iff_forall_ne_some.mpr fun g hmethod => ?_)
    obtain ⟨f, hf, rfl⟩ := (h.field?_eq_some hm).mp hfield
    have he : .field id i f ∈ log := (h.denoted _).mpr (Option.bind_eq_some_iff.mpr ⟨m, hm, hf⟩)
    cases eq_of_key h.distinct he ((h.method?_eq_some hm).mp hmethod) rfl rfl

/-! ### One more entry -/

section Step

variable (h : Logged log p) (hadds : Declaration.Adds p d e q)

include h hadds

theorem step_fields (id : ModelId) :
    (q.ofModel (·.fields) id).zipIdx = (log ++ [e]).filterMap (Entry.field? id) := by
  cases hadds with
  | model name =>
    rw [ofModel_withModels rfl]
    exact rows_same (h.fields id) rfl
  | @field id' m hm f =>
    rw [ofModel_withModel hm]
    split
    · next hid =>
      subst hid
      have hrow : Entry.field? id (.field id m.fields.length f) = some _ := if_pos rfl
      have hold := rows_concat (h.fields id) hrow
      simpa [ofModel_of_some hm, Model.addFields, List.zipIdx_append] using hold
    · next hid => exact rows_same (h.fields id) (if_neg (Ne.symm hid))
  | method hm =>
    rw [ofModel_withModel_same hm]
    · exact rows_same (h.fields id) rfl
    · rfl
  | _ => exact rows_same (h.fields id) rfl

theorem step_methods (id : ModelId) :
    q.ofModel (·.methods) id = (log ++ [e]).filterMap (Entry.method? id) := by
  cases hadds with
  | model name =>
    rw [ofModel_withModels rfl]
    exact rows_same (h.methods id) rfl
  | @method id' m hm name g =>
    rw [ofModel_withModel hm]
    split
    · next hid =>
      subst hid
      have hrow : Entry.method? id (.method id name g) = some _ := if_pos rfl
      have hold := rows_concat (h.methods id) hrow
      simpa [ofModel_of_some hm, Model.addMethods] using hold
    · next hid => exact rows_same (h.methods id) (if_neg (Ne.symm hid))
  | field hm =>
    rw [ofModel_withModel_same hm]
    · exact rows_same (h.methods id) rfl
    · rfl
  | _ => exact rows_same (h.methods id) rfl

theorem step_members {id : ModelId} {m : Model} (hm : q.getModel? id = some m) : m.Listed := by
  cases hadds with
  | model name =>
    obtain hold | ⟨_, rfl⟩ := getElem?_push_cases (getModel?_withModels p name id ▸ hm)
    · exact h.members hold
    · exact ⟨rfl, rfl⟩
  | field hm0 | method hm0 =>
    obtain ⟨rfl, rfl⟩ | ⟨_, hold⟩ := getModel?_withModel_cases hm0 hm
    · obtain ⟨hfields, hmethods⟩ := h.members hm0
      constructor <;>
        simp [Model.addFields, Model.addMethods, hfields, hmethods, NameMap.ofNames_append]
    · exact h.members hold
  | _ => exact h.members hm

/-- What one declaration does to a log and its program. -/
theorem step (hfree : ∀ space name, d.key? = some (space, name) → ¬p.Uses space name) :
    Logged (log ++ [e]) q where
  distinct := by
    have hkey : e.key? = d.key? := by cases hadds <;> rfl
    refine List.pairwise_append.mpr ⟨h.distinct, List.pairwise_singleton _ _, ?_⟩
    intro e1 he1 e2 he2 key hkey1 hkey2
    cases List.mem_singleton.mp he2
    exact hfree key.1 key.2 (hkey.symm.trans hkey2) (h.uses_iff.mpr ⟨e1, he1, hkey1⟩)
  constants := by
    cases hadds with
    | constant c =>
      simpa [Program.withConstants, List.zipIdx_append] using rows_concat h.constants rfl
    | _ => exact rows_same h.constants rfl
  functions := by
    cases hadds with
    | function f | owned f =>
      simpa [Program.withFree, Program.withFunctions, List.zipIdx_append] using
        rows_concat h.functions rfl
    | _ => exact rows_same h.functions rfl
  models := by
    cases hadds with
    | model name =>
      simpa [Program.modelNames, Program.withModels, List.zipIdx_append] using
        rows_concat h.models rfl
    | field hm | method hm =>
      refine Eq.trans ?_ (rows_same h.models rfl)
      rw [modelNames_withModel hm]
      rfl
    | _ => exact rows_same h.models rfl
  locals := by
    cases hadds with
    | binding l => simpa [Program.withLocal, List.zipIdx_append] using rows_concat h.locals rfl
    | _ => exact rows_same h.locals rfl
  fields := h.step_fields hadds
  methods := h.step_methods hadds
  constantMap := by
    cases hadds with
    | constant c => simp [Program.withConstants, h.constantMap, NameMap.ofNames_append]
    | _ => exact h.constantMap
  functionMap := by
    cases hadds with
    | function f => exact rows_concat h.functionMap rfl
    | _ => exact rows_same h.functionMap rfl
  modelMap := by
    cases hadds with
    | model name =>
      simp [Program.withModels, Program.modelNames, h.modelMap, NameMap.ofNames_append]
    | field hm | method hm =>
      refine h.modelMap.trans ?_
      rw [modelNames_withModel hm]
      rfl
    | _ => exact h.modelMap
  members := h.step_members hadds

end Step

theorem record (h : Logged log p) (d : Declaration) :
    Logged (Declaration.record (log, p) d).1 (Declaration.record (log, p) d).2 := by
  obtain ⟨id, _, _, hrun⟩ | ⟨space, name, _, _, hrun⟩ | ⟨hfree, e, q, hadds, hrun⟩ :=
    d.outcome p
  · simpa only [Declaration.record, hrun] using h
  · simpa only [Declaration.record, hrun] using h
  · simpa only [Declaration.record, hrun] using h.step hadds hfree

theorem recordAll (h : Logged log p) (ds : List Declaration) :
    Logged (Declaration.recordAll (log, p) ds).1 (Declaration.recordAll (log, p) ds).2 := by
  induction ds generalizing log p with
  | nil => exact h
  | cons d rest ih => exact ih (h.record d)

/-! ### Refusals -/

theorem refused_iff (h : Logged log p) (d : Declaration) (name : String) :
    (∃ q, d.run p = .error (.duplicate name) q) ↔
      ∃ space, d.key? = some (space, name) ∧ ∃ e ∈ log, e.key? = some (space, name) := by
  simp only [← h.uses_iff]
  constructor
  · rintro ⟨q, hq⟩
    obtain ⟨id, _, _, hrun⟩ | ⟨space, name', hkey, huses, hrun⟩ | ⟨_, e, q', _, hrun⟩ :=
      d.outcome p
    · cases hrun.symm.trans hq
    · cases hrun.symm.trans hq
      exact ⟨space, hkey, huses⟩
    · cases hrun.symm.trans hq
  · rintro ⟨space, hkey, huses⟩
    obtain ⟨id, hmodel, hid, hrun⟩ | ⟨space', name', hkey', _, hrun⟩ | ⟨hfree, _⟩ :=
      d.outcome p
    · cases d with
      | field | method =>
        cases hmodel
        cases hkey
        obtain ⟨m, hm, _⟩ := huses
        cases hid.symm.trans hm
      | _ => cases hmodel
    · cases hkey.symm.trans hkey'
      exact ⟨p, hrun⟩
    · exact absurd huses (hfree space name hkey)

theorem accepted (h : Logged log p) (d : Declaration)
    (hmodel : ∀ id, d.model? = some id → ∃ name, .model id name ∈ log)
    (hfree : ∀ key, d.key? = some key → ∀ e ∈ log, e.key? ≠ some key) :
    ∃ e q, d.run p = .ok e q := by
  obtain ⟨id, hid, hnone, _⟩ | ⟨space, name, hkey, huses, _⟩ | ⟨_, e, q, _, hrun⟩ :=
    d.outcome p
  · obtain ⟨name, hname⟩ := hmodel id hid
    obtain ⟨m, hm, _⟩ := (h.denoted _).mp hname
    cases hnone.symm.trans hm
  · obtain ⟨e, he, hkey'⟩ := h.uses_iff.mp huses
    exact absurd hkey' (hfree _ hkey e he)
  · exact ⟨e, q, hrun⟩

end Logged

/-- What the tables of a program record of the declarations that made it. -/
structure Recorded (log : List Entry) (p : Program) : Prop where
  /-- What was declared is denoted by its id, and nothing else is denoted. -/
  denoted : ∀ e, e ∈ log ↔ e.Denoted p
  constants : ∀ name id, p.constant? name = some id ↔ ∃ c, .constant id c ∈ log ∧ c.name = name
  functions : ∀ name id, p.function? name = some id ↔
    ∃ f, .function id f ∈ log ∧ f.name = name
  models : ∀ name id, p.model? name = some id ↔ .model id name ∈ log
  values_disjoint : ∀ name, p.constant? name = none ∨ p.function? name = none
  fields : ∀ {id m}, p.getModel? id = some m → ∀ name i,
    m.field? name = some i ↔ ∃ f, m.fields[i]? = some f ∧ f.name = name
  methods : ∀ {id m}, p.getModel? id = some m → ∀ name g,
    m.method? name = some g ↔ .method id name g ∈ log
  listed : ∀ {id m}, p.getModel? id = some m → ∀ x,
    x ∈ m.methods ↔ .method id x.name x.function ∈ log
  members_disjoint : ∀ {id m}, p.getModel? id = some m → ∀ name,
    m.field? name = none ∨ m.method? name = none
  /-- The free functions are those that were declared with a name, in the order of the log. -/
  free : p.freeFunctions = log.filterMap fun e => e.functionName?.map (·.2)
  ordered : p.freeFunctions.Pairwise fun id id' => id.index < id'.index
  /-- A declaration is refused as a duplicate exactly if its name is taken in its name space. -/
  refused : ∀ (d : Declaration) name, (∃ q, d.run p = .error (.duplicate name) q) ↔
    ∃ space, d.key? = some (space, name) ∧ ∃ e ∈ log, e.key? = some (space, name)
  /-- A declaration is refused for no other reason, if the model that it adds to is there. -/
  accepted : ∀ d : Declaration, (∀ id, d.model? = some id → ∃ name, .model id name ∈ log) →
    (∀ key, d.key? = some key → ∀ e ∈ log, e.key? ≠ some key) → ∃ e q, d.run p = .ok e q
  unchanged : ∀ {d : Declaration} {reason q}, d.run p = .error reason q → q = p

theorem unchanged_of_error {d : Declaration} {p q : Program} {reason : BuildError}
    (h : d.run p = .error reason q) : q = p := by
  obtain ⟨_, _, _, hrun⟩ | ⟨_, _, _, _, hrun⟩ | ⟨_, _, _, _, hrun⟩ := d.outcome p
  · cases hrun.symm.trans h
    rfl
  · cases hrun.symm.trans h
    rfl
  · cases hrun.symm.trans h

/-- The tables of a program record the declarations that made it. -/
theorem Logged.recorded {log : List Entry} {p : Program} (h : Logged log p) : Recorded log p where
  denoted := h.denoted
  constants _ _ := h.constant?_eq_some
  functions _ _ := h.function?_eq_some
  models _ _ := h.model?_eq_some
  values_disjoint := h.values_disjoint
  fields hm _ _ := h.field?_eq_some hm
  methods hm _ _ := h.method?_eq_some hm
  listed hm _ := h.mem_methods hm
  members_disjoint := h.members_disjoint
  free := by rw [Program.freeFunctions, h.functionMap, List.map_filterMap]
  ordered := h.ordered
  refused := h.refused_iff
  accepted := h.accepted
  unchanged := unchanged_of_error

/-- A log only grows. -/
theorem mem_recordAll {s : List Entry × Program} {ds : List Declaration} {e : Entry} (h : e ∈ s.1) :
    e ∈ (Declaration.recordAll s ds).1 := by
  induction ds generalizing s with
  | nil => exact h
  | cons d rest ih =>
    refine ih ?_
    unfold Declaration.record
    split
    · exact List.mem_append_left _ h
    · exact h

/-- Whatever is declared, one after the other and from the empty program on: the tables record the
declarations that were accepted. What was answered once is denoted for good. -/
theorem declarations_recorded (name : String) (ds : List Declaration) :
    Recorded (Declaration.history name ds).1 (Declaration.history name ds).2 ∧
    ∀ later, ∀ e ∈ (Declaration.history name ds).1,
      e.Denoted (Declaration.history name (ds ++ later)).2 := by
  refine ⟨((Logged.empty name).recordAll ds).recorded, fun later e he => ?_⟩
  refine (((Logged.empty name).recordAll (ds ++ later)).denoted e).mp ?_
  have happend : Declaration.history name (ds ++ later) =
      Declaration.recordAll (Declaration.history name ds) later := List.foldl_append
  show e ∈ (Declaration.history name (ds ++ later)).1
  rw [happend]
  exact mem_recordAll he

end Scribe.Core
