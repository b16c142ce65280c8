import Mathlib.Data.List.Forall2
import Scribe.Proofs.Soundness

/-!
# What declarations put into the tables

Declaring a module succeeds exactly if its names are valid and distinct and its types and constants
can be lowered, and then the tables are known entry by entry: the models in the order of the module,
the constants, the free functions, and after these the methods of one model after the other
(`declareAll_eq_ok`). The signature of a function depends on the names of the models only, so it
does not matter when it is lowered.
-/

namespace Scribe.Core

open Scribe.Lowering

/-! ## Tables that change -/

/-- The program with another model behind an id. -/
def Program.withModel (p : Program) (id : ModelId) (m : Model) : Program :=
  { p with models := p.models.setIfInBounds id.index m }

section Tables

variable {p : Program} {id : ModelId} {m0 m : Model}

theorem getModel?_withModel (hm : p.getModel? id = some m0) (id' : ModelId) :
    (p.withModel id m).getModel? id' = if id' = id then some m else p.getModel? id' := by
  refine (getElem?_set_of_some hm m id'.index).trans ?_
  by_cases h : id' = id
  · subst h
    rw [if_pos rfl, if_pos rfl]
  · have hindex : ¬id'.index = id.index := fun heq => h (by cases id; cases id'; cases heq; rfl)
    rw [if_neg hindex, if_neg h]
    rfl

theorem getModel?_withModel_self (hm : p.getModel? id = some m0) :
    (p.withModel id m).getModel? id = some m := by
  rw [getModel?_withModel hm, if_pos rfl]

theorem getModel?_withModel_cases (hm : p.getModel? id = some m0) {id' : ModelId} {m' : Model}
    (h : (p.withModel id m).getModel? id' = some m') :
    (id' = id ∧ m' = m) ∨ (id' ≠ id ∧ p.getModel? id' = some m') := by
  rw [getModel?_withModel hm] at h
  by_cases hid : id' = id
  · rw [if_pos hid] at h
    exact .inl ⟨hid, (Option.some.inj h).symm⟩
  · rw [if_neg hid] at h
    exact .inr ⟨hid, h⟩

theorem withModel_grows (hm : p.getModel? id = some m0) (hgrows : m0.Grows m) :
    p.Grows (p.withModel id m) := by
  refine ⟨fun h => h, fun {_ f} hf => ⟨f, hf, .refl f⟩, ?_, fun h => h⟩
  intro id' m' hm'
  rw [getModel?_withModel hm]
  by_cases hid : id' = id
  · subst hid
    rw [hm] at hm'
    cases hm'
    exact ⟨m, if_pos rfl, hgrows⟩
  · exact ⟨m', by rw [if_neg hid]; exact hm', .refl m'⟩

/-- A model that changes in its equality or its hash only keeps its names. -/
theorem withModel_indexed (hp : p.Indexed) (hm : p.getModel? id = some m0)
    (hsame : m = { m0 with equality := m.equality, hashing := m.hashing }) :
    (p.withModel id m).Indexed := by
  refine ⟨hp.constants, hp.functions, hp.models.congr fun name id' => ?_, ?_, ?_⟩
  · rw [getModel?_withModel hm]
    by_cases hid : id' = id
    · rw [hid, if_pos rfl, hm, hsame]
      simp only [Option.some.injEq, exists_eq_left']
    · rw [if_neg hid]
  · intro id' m' hm'
    obtain ⟨rfl, rfl⟩ | ⟨_, hold⟩ := getModel?_withModel_cases hm hm'
    · rw [hsame]
      exact (hp.fields hm :)
    · exact hp.fields hold
  · intro id' m' hm'
    obtain ⟨rfl, rfl⟩ | ⟨_, hold⟩ := getModel?_withModel_cases hm hm'
    · rw [hsame]
      exact (hp.methods hm :)
    · exact hp.methods hold

theorem withModel_signatures (hp : p.Signatures) (hm : p.getModel? id = some m0)
    (hgrows : m0.Grows m)
    (hsame : m = { m0 with equality := m.equality, hashing := m.hashing }) :
    (p.withModel id m).Signatures := by
  refine .of_grows (withModel_grows hm hgrows) (withModel_indexed hp.indexed hm hsame) hp.constants
    hp.parameters hp.returnType hp.owner ?_ ?_ hp.locals
  · intro id' m' hm'
    obtain ⟨rfl, rfl⟩ | ⟨_, hold⟩ := getModel?_withModel_cases hm hm'
    · rw [hsame]
      exact (hp.fields hm :)
    · exact hp.fields hold
  · intro id' m' hm'
    obtain ⟨rfl, rfl⟩ | ⟨_, hold⟩ := getModel?_withModel_cases hm hm'
    · rw [hsame]
      exact (hp.methods hm :)
    · exact hp.methods hold

end Tables

/-! ## Names -/

/-- The names of constants and free functions. -/
def Program.valueNames (p : Program) : List String :=
  p.constantMap.names ++ p.functionMap.names

/-- The names of models. -/
def Program.modelNames (p : Program) : List String :=
  p.models.toList.map (·.name)

/-- The names of the members of a model. -/
def Model.memberNames (m : Model) : List String :=
  m.fieldMap.names ++ m.methodMap.names

variable {name : String}

theorem Program.model?_eq_none {p : Program} : p.model? name = none ↔ name ∉ p.modelMap.names :=
  lookup_eq_none

theorem Program.hasValue_eq_false {p : Program} :
    p.hasValue name = false ↔ name ∉ p.valueNames := by
  rw [Program.hasValue, Bool.or_eq_false_iff, Option.isSome_eq_false_iff,
    Option.isSome_eq_false_iff, Option.isNone_iff_eq_none, Option.isNone_iff_eq_none,
    Program.valueNames, List.mem_append, not_or]
  exact and_congr lookup_eq_none lookup_eq_none

theorem Model.hasMember_eq_false {m : Model} : m.hasMember name = false ↔ name ∉ m.memberNames := by
  rw [Model.hasMember, Bool.or_eq_false_iff, Option.isSome_eq_false_iff,
    Option.isSome_eq_false_iff, Option.isNone_iff_eq_none, Option.isNone_iff_eq_none,
    Model.memberNames, List.mem_append, not_or]
  exact and_congr lookup_eq_none lookup_eq_none

/-! ## Tables that grow by several entries -/

/-- The model with more fields. -/
def Model.addFields (m : Model) (fields : List Field) : Model :=
  { m with
    fields := m.fields ++ fields
    fieldMap := m.fieldMap ++ .ofNames (fun i => i) m.fields.length (fields.map (·.name)) }

/-- The model with more methods. -/
def Model.addMethods (m : Model) (methods : List Method) : Model :=
  { m with
    methods := m.methods ++ methods
    methodMap := m.methodMap ++ methods.map fun x => (x.name, x.function) }

theorem Model.addFields_nil (m : Model) : m.addFields [] = m := by
  simp [Model.addFields, NameMap.ofNames]

theorem Model.addMethods_nil (m : Model) : m.addMethods [] = m := by
  simp [Model.addMethods]

theorem Model.addFields_addFields (m : Model) (fs gs : List Field) :
    (m.addFields fs).addFields gs = m.addFields (fs ++ gs) := by
  simp [Model.addFields, NameMap.ofNames_append]

theorem Model.addMethods_addMethods (m : Model) (xs ys : List Method) :
    (m.addMethods xs).addMethods ys = m.addMethods (xs ++ ys) := by
  simp [Model.addMethods]

/-- The program with more functions, whose names are not known. -/
def Program.withFunctions (p : Program) (fs : List Function) : Program :=
  { p with functions := p.functions ++ fs.toArray }

/-- The program with more free functions. -/
def Program.withFree (p : Program) (fs : List Function) : Program :=
  { p.withFunctions fs with
    functionMap := p.functionMap ++ .ofNames FunctionId.mk p.functions.size (fs.map (·.name)) }

/-- The program with more constants. -/
def Program.withConstants (p : Program) (cs : List Constant) : Program :=
  { p with
    constants := p.constants ++ cs.toArray
    constantMap := p.constantMap ++ .ofNames ConstantId.mk p.constants.size (cs.map (·.name)) }

/-- The program with more models, none of which has members. -/
def Program.withModels (p : Program) (names : List String) : Program :=
  { p with
    models := p.models ++ (names.map fun name => ({ name } : Model)).toArray
    modelMap := p.modelMap ++ .ofNames ModelId.mk p.models.size names }

section Tables

variable {p : Program} {id : ModelId} {m0 m : Model}

theorem withFunctions_nil : p.withFunctions [] = p := by
  simp [Program.withFunctions]

theorem withFunctions_withFunctions (fs gs : List Function) :
    (p.withFunctions fs).withFunctions gs = p.withFunctions (fs ++ gs) := by
  simp [Program.withFunctions]

theorem size_withFunctions (fs : List Function) :
    (p.withFunctions fs).functions.size = p.functions.size + fs.length := by
  simp [Program.withFunctions]

theorem withFree_nil : p.withFree [] = p := by
  simp [Program.withFree, Program.withFunctions, NameMap.ofNames]

theorem withFree_withFree (fs gs : List Function) :
    (p.withFree fs).withFree gs = p.withFree (fs ++ gs) := by
  simp [Program.withFree, Program.withFunctions, NameMap.ofNames_append]

theorem mem_valueNames_withFree {fs : List Function} :
    name ∈ (p.withFree fs).valueNames ↔ name ∈ p.valueNames ∨ name ∈ fs.map (·.name) := by
  simp only [Program.valueNames, Program.withFree, Program.withFunctions, NameMap.names_append,
    NameMap.names_ofNames, List.mem_append, or_assoc]

theorem withModel_self (hm : p.getModel? id = some m) : p.withModel id m = p := by
  have hmodels : p.models.setIfInBounds id.index m = p.models := by
    refine Array.ext_getElem? fun j => ?_
    rw [getElem?_set_of_some hm]
    by_cases hj : j = id.index
    · rw [if_pos hj, hj]
      exact hm.symm
    · rw [if_neg hj]
  rw [Program.withModel, hmodels]

theorem withModel_withModel (m m' : Model) :
    (p.withModel id m).withModel id m' = p.withModel id m' := by
  simp [Program.withModel, Array.setIfInBounds_setIfInBounds]

end Tables

end Scribe.Core

namespace Scribe.Lowering

open Scribe.Core

/-! ## Signatures -/

/-- A parameter as its declaration says. -/
structure ParameterOf (p : Program) (q : Syntax.Parameter) (q' : Parameter) : Prop where
  valid : checkMemberName q.name = .ok ()
  name : q'.name = q.name
  type : lowerValueType p q.type = .ok q'.type

/-- A field as its declaration says. -/
structure FieldOf (p : Program) (f : Syntax.Field) (f' : Field) : Prop where
  valid : checkMemberName f.name = .ok ()
  name : f'.name = f.name
  type : lowerValueType p f.type = .ok f'.type

/-- A function whose signature is as its declaration says. -/
structure SignatureOf (p : Program) (owner : Option ModelId) (f : Syntax.Function) (g : Function) :
    Prop where
  valid : checkMemberName f.name = .ok ()
  name : g.name = f.name
  parameters : List.Forall₂ (ParameterOf p) f.parameters g.parameters
  distinct : (f.parameters.map (·.name)).Nodup
  returnType : lowerType p f.returnType = .ok g.returnType
  owner : g.owner = owner

/-- A function with a signature and no body yet. -/
structure Undefined (p : Program) (owner : Option ModelId) (f : Syntax.Function) (g : Function) :
    Prop where
  signature : SignatureOf p owner f g
  body : g.body = []

/-! ### Types depend on the names of models only -/

section Congr

variable {p p' : Program} (h : p'.modelMap = p.modelMap)

include h

theorem model?_congr (name : String) : p'.model? name = p.model? name := by
  rw [Program.model?, Program.model?, h]

theorem lowerType_congr (t : Syntax.TypeExpr) : lowerType p' t = lowerType p t := by
  induction t with
  | bool | int | rune | string | void => rfl
  | list item ih | set item ih => rw [lowerType, lowerType, ih]
  | map key value ihk ihv => rw [lowerType, lowerType, ihk, ihv]
  | model name => rw [lowerType, lowerType, resolveModel, resolveModel, model?_congr h]

theorem lowerValueType_congr (t : Syntax.TypeExpr) : lowerValueType p' t = lowerValueType p t := by
  rw [lowerValueType, lowerValueType, lowerType_congr h]

theorem ParameterOf.congr {q : Syntax.Parameter} {q' : Parameter} (hq : ParameterOf p' q q') :
    ParameterOf p q q' :=
  ⟨hq.valid, hq.name, (lowerValueType_congr h q.type).symm.trans hq.type⟩

theorem FieldOf.congr {f : Syntax.Field} {f' : Field} (hf : FieldOf p' f f') : FieldOf p f f' :=
  ⟨hf.valid, hf.name, (lowerValueType_congr h f.type).symm.trans hf.type⟩

variable {owner : Option ModelId} {f : Syntax.Function} {g : Function}

theorem SignatureOf.congr (hg : SignatureOf p' owner f g) : SignatureOf p owner f g :=
  ⟨hg.valid, hg.name, hg.parameters.imp fun _ _ => ParameterOf.congr h, hg.distinct,
    (lowerType_congr h f.returnType).symm.trans hg.returnType, hg.owner⟩

theorem Undefined.congr (hg : Undefined p' owner f g) : Undefined p owner f g :=
  ⟨SignatureOf.congr h hg.signature, hg.body⟩

end Congr

/-! ### Lowering a signature -/

/-- Names that are different from each other and from those in use, taken one by one. -/
theorem fresh_cons {α : Type} {name : α → String} {taken taken' : List String} {x : α} {xs : List α}
    (h : ∀ n, n ∈ taken' ↔ n ∈ taken ∨ n = name x) :
    (((x :: xs).map name).Nodup ∧ ∀ y ∈ x :: xs, name y ∉ taken) ↔
      name x ∉ taken ∧ (xs.map name).Nodup ∧ ∀ y ∈ xs, name y ∉ taken' := by
  simp only [List.map_cons, List.nodup_cons, List.mem_map, not_exists, not_and, List.forall_mem_cons,
    h, not_or]
  constructor
  · rintro ⟨⟨hne, hnodup⟩, hx, hxs⟩
    exact ⟨hx, hnodup, fun y hy => ⟨hxs y hy, hne y hy⟩⟩
  · rintro ⟨hx, hnodup, hxs⟩
    exact ⟨⟨fun y hy => (hxs y hy).2, hnodup⟩, hx, fun y hy => (hxs y hy).1⟩

variable {c c' : Context}

theorem lowerParameters_eq_ok {earlier : List Parameter} {qs : List Syntax.Parameter}
    {all : List Parameter} :
    lowerParameters earlier qs c = .ok all c' ↔
      (∃ qs', all = earlier ++ qs' ∧ List.Forall₂ (ParameterOf c.program) qs qs') ∧
      ((qs.map (·.name)).Nodup ∧ ∀ q ∈ qs, q.name ∉ earlier.map (·.name)) ∧ c = c' := by
  induction qs generalizing earlier c with
  | nil =>
    simp only [lowerParameters, Step.pure_eq_ok]
    constructor
    · rintro ⟨rfl, rfl⟩
      exact ⟨⟨[], (List.append_nil _).symm, .nil⟩, ⟨.nil, List.forall_mem_nil _⟩, rfl⟩
    · rintro ⟨⟨_, rfl, ⟨⟩⟩, _, rfl⟩
      exact ⟨(List.append_nil _).symm, rfl⟩
  | cons q qs ih =>
    have hany : ¬earlier.any (·.name == q.name) = true ↔ q.name ∉ earlier.map (·.name) := by
      rw [List.any_eq_true, List.mem_map]
      simp
    have hnames (t : Ty) (name : String) :
        name ∈ (earlier ++ [(⟨q.name, t⟩ : Parameter)]).map (·.name) ↔
          name ∈ earlier.map (·.name) ∨ name = q.name := by
      simp
    simp only [lowerParameters, Step.bind_eq_ok, Lower.check_eq_ok, Step.kept,
      Step.unless_eq_ok, hany, ih]
    constructor
    · rintro ⟨_, hvalid, htaken, t, ht, ⟨qs', rfl, hqs⟩, hfresh, rfl⟩
      exact ⟨⟨⟨q.name, t⟩ :: qs', by rw [List.append_assoc]; rfl, .cons ⟨hvalid, rfl, ht⟩ hqs⟩,
        (fresh_cons (hnames t)).mpr ⟨htaken, hfresh⟩, rfl⟩
    · rintro ⟨⟨_, rfl, hqs⟩, hfresh, rfl⟩
      cases hqs with
      | @cons _ q' _ qs' hq hqs =>
        obtain ⟨htaken, hfresh⟩ := (fresh_cons (hnames q'.type)).mp hfresh
        refine ⟨(), hq.valid, htaken, q'.type, hq.type, ⟨qs', ?_, hqs⟩, hfresh, rfl⟩
        rw [List.append_assoc, ← hq.name]
        rfl

variable {f : Syntax.Function} {id : ModelId} {u : Unit} {ds : List Deferred} {p p' : Program}
  {model : Model}

variable {qs : List Parameter} {t : Ty} {name : String} {ks : List Syntax.Constant} {d : Deferred}
  {fs : List Syntax.Function} {m : Model} {fields : List Field} {md : Syntax.Model}

theorem lowerSignature_eq_ok :
    lowerSignature f c = .ok (qs, t) c' ↔
      List.Forall₂ (ParameterOf c.program) f.parameters qs ∧ (f.parameters.map (·.name)).Nodup ∧
        lowerType c.program f.returnType = .ok t ∧ c = c' := by
  simp only [lowerSignature, Step.bind_eq_ok, lowerParameters_eq_ok, Lower.check_eq_ok,
    Step.pure_eq_ok]
  constructor
  · rintro ⟨_, _, ⟨⟨qs', rfl, hqs⟩, ⟨hnodup, _⟩, rfl⟩, _, _, ⟨ht, rfl⟩, hpair, rfl⟩
    cases hpair
    exact ⟨hqs, hnodup, ht, rfl⟩
  · rintro ⟨hqs, hnodup, ht, rfl⟩
    exact ⟨qs, c, ⟨⟨qs, rfl, hqs⟩, ⟨hnodup, fun _ _ => List.not_mem_nil⟩, rfl⟩, t, c, ⟨ht, rfl⟩,
      rfl, rfl⟩

/-! ## Models -/

theorem declareModel_eq_ok : Build.declareModel name p = .ok id p' ↔ name ∉ p.modelMap.names ∧
    ⟨p.models.size⟩ = id ∧ p.withModels [name] = p' := by
  simp only [Build.declareModel, Step.bind_eq_ok, Step.get_eq_ok, Step.kept, exists_eq_left',
    Step.unless_eq_ok, Option.not_isSome_iff_eq_none, Program.model?_eq_none, Step.set_eq_ok,
    exists_const, Step.pure_eq_ok]
  refine and_congr_right fun hfresh => and_congr_right fun _ => ?_
  rw [assocInsert_of_notMem hfresh, Program.withModels, List.map_singleton,
    ← Array.push_eq_append]
  rfl

theorem declareModel_iff {m : Syntax.Model} :
    declareModel m c = .ok id c' ↔
      (checkTypeName m.name = .ok () ∧ m.name ∉ c.program.modelMap.names) ∧
      id = ⟨c.program.models.size⟩ ∧ c' = { c with program := c.program.withModels [m.name] } := by
  simp only [declareModel, Step.bind_eq_ok, Lower.check_eq_ok, Step.kept, Lower.build_eq_ok,
    declareModel_eq_ok]
  constructor
  · rintro ⟨_, hvalid, _, ⟨hfresh, rfl, rfl⟩, rfl⟩
    exact ⟨⟨hvalid, hfresh⟩, rfl, rfl⟩
  · rintro ⟨⟨hvalid, hfresh⟩, rfl, rfl⟩
    exact ⟨(), hvalid, _, ⟨hfresh, rfl, rfl⟩, rfl⟩

theorem mapM_declareModel_eq_ok {ms : List Syntax.Model} {ids : List ModelId} :
    ms.mapM declareModel c = .ok ids c' ↔
      ((∀ m ∈ ms, checkTypeName m.name = .ok ()) ∧ (ms.map (·.name)).Nodup ∧
        ∀ m ∈ ms, m.name ∉ c.program.modelMap.names) ∧
      ids = (List.range' c.program.models.size ms.length).map ModelId.mk ∧
      c' = { c with program := c.program.withModels (ms.map (·.name)) } := by
  induction ms generalizing c ids with
  | nil =>
    rw [Step.mapM_nil_eq_ok]
    constructor
    · rintro ⟨rfl, rfl⟩
      exact ⟨⟨List.forall_mem_nil _, .nil, List.forall_mem_nil _⟩, rfl, by
        simp [Program.withModels, NameMap.ofNames]⟩
    · rintro ⟨_, rfl, rfl⟩
      exact ⟨rfl, by simp [Program.withModels, NameMap.ofNames]⟩
  | cons m ms ih =>
    have hnames (name : String) : name ∈ (c.program.withModels [m.name]).modelMap.names ↔
        name ∈ c.program.modelMap.names ∨ name = m.name := by
      simp [Program.withModels, NameMap.names_append, NameMap.names_ofNames]
    have hsize : (c.program.withModels [m.name]).models.size = c.program.models.size + 1 := by
      simp [Program.withModels]
    have hmodels : (c.program.withModels [m.name]).withModels (ms.map (·.name)) =
        c.program.withModels ((m :: ms).map (·.name)) := by
      simp [Program.withModels, NameMap.ofNames]
    rw [Step.mapM_cons_eq_ok]
    constructor
    · rintro ⟨id, c1, rest, hm, hms, rfl⟩
      obtain ⟨⟨hvalid, hfresh⟩, rfl, rfl⟩ := declareModel_iff.mp hm
      obtain ⟨⟨hvalids, hfreshes⟩, rfl, rfl⟩ := ih.mp hms
      refine ⟨⟨List.forall_mem_cons.mpr ⟨hvalid, hvalids⟩,
        (fresh_cons hnames).mpr ⟨hfresh, hfreshes⟩⟩, ?_, by rw [hmodels]⟩
      rw [List.length_cons, List.range'_succ, List.map_cons, hsize]
    · rintro ⟨⟨hvalids, hfreshes⟩, rfl, rfl⟩
      obtain ⟨hvalid, hvalids⟩ := List.forall_mem_cons.mp hvalids
      obtain ⟨hfresh, hfreshes⟩ := (fresh_cons hnames).mp hfreshes
      refine ⟨_, _, _, declareModel_iff.mpr ⟨⟨hvalid, hfresh⟩, rfl, rfl⟩,
        ih.mpr ⟨⟨hvalids, hfreshes⟩, rfl, by rw [hmodels]⟩, ?_⟩
      rw [List.length_cons, List.range'_succ, List.map_cons, hsize]

/-! ## Constants -/

/-- Constants as their declarations say, each where those before it may be used. -/
inductive ConstantsOf : Program → List Syntax.Constant → List Constant → Prop where
  | nil {p : Program} : ConstantsOf p [] []
  | cons {p : Program} {k : Syntax.Constant} {k' : Constant} {ks : List Syntax.Constant}
      {ks' : List Constant} (hvalid : checkConstantName k.name = .ok ()) (hname : k'.name = k.name)
      (hform : isConstantForm k.value = true) (hvalue : Elab p [.program] k.value k'.value)
      (htype : typeOf p k'.value = .ok k'.type) (hfresh : k.name ∉ p.valueNames)
      (hks : ConstantsOf (p.withConstants [k']) ks ks') : ConstantsOf p (k :: ks) (k' :: ks')

theorem mem_valueNames_withConstants {ks : List Constant} :
    name ∈ (p.withConstants ks).valueNames ↔ name ∈ p.valueNames ∨ name ∈ ks.map (·.name) := by
  simp only [Program.valueNames, Program.withConstants, NameMap.names_append,
    NameMap.names_ofNames, List.mem_append]
  exact or_right_comm

theorem withConstants_withConstants (ks ks' : List Constant) :
    (p.withConstants ks).withConstants ks' = p.withConstants (ks ++ ks') := by
  simp [Program.withConstants, NameMap.ofNames_append]

theorem withConstants_nil : p.withConstants [] = p := by
  simp [Program.withConstants, NameMap.ofNames]

theorem withConstants_grows (ks : List Constant) : p.Grows (p.withConstants ks) := by
  exact ⟨fun hk => getElem?_append_of_some hk _, fun {_ f} hf => ⟨f, hf, .refl f⟩,
    fun {_ m} hm => ⟨m, hm, .refl m⟩, fun h => h⟩

theorem declareConstant_eq_ok {k : Constant} {id : ConstantId} :
    Build.declareConstant k p = .ok id p' ↔ k.name ∉ p.valueNames ∧
      ⟨p.constants.size⟩ = id ∧ p.withConstants [k] = p' := by
  simp only [Build.declareConstant, Step.bind_eq_ok, Step.get_eq_ok, Step.kept, exists_eq_left',
    Step.unless_eq_ok, Bool.not_eq_true, Program.hasValue_eq_false, Step.set_eq_ok, exists_const,
    Step.pure_eq_ok]
  refine and_congr_right fun hfresh => and_congr_right fun _ => ?_
  rw [assocInsert_of_notMem fun h => hfresh (List.mem_append_left _ h), Program.withConstants,
    ← Array.push_eq_append]
  rfl

theorem lowerConstant_eq_ok {k : Syntax.Constant} (hscope : c.scope = [.program]) :
    lowerConstant k c = .ok u c' ↔
      ∃ k' : Constant, (checkConstantName k.name = .ok () ∧ k'.name = k.name ∧
        isConstantForm k.value = true ∧ Elab c.program [.program] k.value k'.value ∧
        typeOf c.program k'.value = .ok k'.type ∧ k.name ∉ c.program.valueNames) ∧
        c' = { c with program := c.program.withConstants [k'] } := by
  simp only [lowerConstant, Step.bind_eq_ok, Lower.check_eq_ok, Step.kept,
    Step.unless_eq_ok, lowerExpr_eq_ok, hscope, typed_eq_ok, Lower.build_eq_ok,
    declareConstant_eq_ok, Step.pure_eq_ok]
  constructor
  · rintro ⟨_, hvalid, hform, value, hvalue, t, ht, _, _, ⟨_, ⟨hfresh, rfl, rfl⟩, rfl⟩, _, rfl⟩
    exact ⟨⟨k.name, value, t⟩, ⟨hvalid, rfl, by simpa using hform, hvalue, ht, hfresh⟩, rfl⟩
  · rintro ⟨⟨_, value, t⟩, ⟨hvalid, rfl, hform, hvalue, ht, hfresh⟩, rfl⟩
    exact ⟨(), hvalid, by simp [hform], value, hvalue, t, ht, _, _, ⟨_, ⟨hfresh, rfl, rfl⟩, rfl⟩,
      trivial, rfl⟩

theorem forM_lowerConstant_eq_ok (hscope : c.scope = [.program]) :
    ks.forM lowerConstant c = .ok u c' ↔
      ∃ ks', ConstantsOf c.program ks ks' ∧
        c' = { c with program := c.program.withConstants ks' } := by
  induction ks generalizing c with
  | nil =>
    rw [Step.forM_nil_eq_ok]
    constructor
    · rintro rfl
      exact ⟨[], .nil, by rw [withConstants_nil]⟩
    · rintro ⟨_, ⟨⟩, rfl⟩
      rw [withConstants_nil]
  | cons k ks ih =>
    have hscope' (q : Program) : ({ c with program := q } : Context).scope = [.program] := hscope
    rw [Step.forM_cons_eq_ok]
    constructor
    · rintro ⟨c1, hk, hks⟩
      obtain ⟨k', ⟨hvalid, hname, hform, hvalue, ht, hfresh⟩, rfl⟩ :=
        (lowerConstant_eq_ok hscope).mp hk
      obtain ⟨ks', hrest, rfl⟩ := (ih (hscope' _)).mp hks
      exact ⟨k' :: ks', .cons hvalid hname hform hvalue ht hfresh hrest, by
        rw [withConstants_withConstants]; rfl⟩
    · rintro ⟨_, h, rfl⟩
      cases h with
      | @cons _ _ k' _ ks' hvalid hname hform hvalue ht hfresh hks =>
        refine ⟨_, (lowerConstant_eq_ok hscope).mpr
          ⟨k', ⟨hvalid, hname, hform, hvalue, ht, hfresh⟩, rfl⟩,
          (ih (hscope' _)).mpr ⟨ks', hks, ?_⟩⟩
        rw [withConstants_withConstants]
        rfl

/-- Constants have names of their own. -/
theorem ConstantsOf.names {ks' : List Constant} (h : ConstantsOf p ks ks') :
    ks'.map (·.name) = ks.map (·.name) ∧ (ks.map (·.name)).Nodup ∧
      ∀ name ∈ ks.map (·.name), name ∉ p.valueNames := by
  induction h with
  | nil => exact ⟨rfl, .nil, List.forall_mem_nil _⟩
  | @cons p k k' ks ks' hvalid hname hform hvalue ht hfresh hks ih =>
    obtain ⟨hnames, hnodup, hfreshes⟩ := ih
    rw [List.map_cons, List.map_cons, hname, hnames]
    refine ⟨rfl, List.nodup_cons.mpr ⟨?_, hnodup⟩, List.forall_mem_cons.mpr ⟨hfresh, ?_⟩⟩
    · intro hmem
      refine hfreshes _ hmem (mem_valueNames_withConstants.mpr (.inr ?_))
      rw [List.map_singleton, hname]
      exact List.mem_cons_self
    · intro name hmem hold
      exact hfreshes name hmem (mem_valueNames_withConstants.mpr (.inl hold))

/-! ## Free functions -/

/-- The body of a free function as work. -/
def Deferred.ofFunction (id : FunctionId) (block : Syntax.Block) : Deferred :=
  ⟨[.function id, .program], .body (.function id block)⟩

/-- The members of a model as work. -/
def Deferred.ofModel (id : ModelId) (m : Syntax.Model) : Deferred :=
  ⟨[.model id, .program], .members id m⟩

/-- The bodies of free functions as work. The first one has the id `n`. -/
def functionWork (n : Nat) : List Syntax.Function → List Deferred
  | [] => []
  | f :: fs => .ofFunction ⟨n⟩ f.body :: functionWork (n + 1) fs

theorem declareFunction_eq_ok {g : Function} {id : FunctionId} :
    Build.declareFunction g p = .ok id p' ↔ g.name ∉ p.valueNames ∧
      ⟨p.functions.size⟩ = id ∧ p.withFree [g] = p' := by
  simp only [Build.declareFunction, Step.bind_eq_ok, Step.get_eq_ok, Step.kept, exists_eq_left',
    Step.unless_eq_ok, Bool.not_eq_true, Program.hasValue_eq_false, Step.set_eq_ok, exists_const,
    Step.pure_eq_ok]
  refine and_congr_right fun hfresh => and_congr_right fun _ => ?_
  rw [assocInsert_of_notMem fun h => hfresh (List.mem_append_right _ h), Program.withFree,
    Program.withFunctions, ← Array.push_eq_append]
  rfl

theorem lowerFunction_eq_ok (hscope : c.scope = [.program]) :
    lowerFunction f c = .ok d c' ↔
      ∃ g, (Undefined c.program none f g ∧ f.name ∉ c.program.valueNames) ∧
        d = .ofFunction ⟨c.program.functions.size⟩ f.body ∧
        c' = { c with program := c.program.withFree [g] } := by
  unfold lowerFunction
  simp only [Step.bind_eq_ok, Lower.check_eq_ok, Step.kept, Lower.build_eq_ok,
    declareFunction_eq_ok, defer, Step.get_eq_ok, Step.pure_eq_ok]
  constructor
  · rintro ⟨_, hvalid, ⟨qs, t⟩, _, hsignature, id, _, ⟨_, ⟨hfresh, rfl, rfl⟩, rfl⟩, _, rfl, rfl,
      rfl⟩
    obtain ⟨hqs, hnodup, ht, rfl⟩ := lowerSignature_eq_ok.mp hsignature
    refine ⟨⟨f.name, qs, t, none, []⟩, ⟨⟨⟨hvalid, rfl, hqs, hnodup, ht, rfl⟩, rfl⟩, hfresh⟩, ?_,
      rfl⟩
    rw [hscope]
    rfl
  · rintro ⟨⟨_, qs, t, _, _⟩, ⟨⟨⟨hvalid, rfl, hqs, hnodup, ht, rfl⟩, rfl⟩, hfresh⟩, rfl, rfl⟩
    refine ⟨(), hvalid, (qs, t), c, lowerSignature_eq_ok.mpr ⟨hqs, hnodup, ht, rfl⟩,
      _, _, ⟨_, ⟨hfresh, rfl, rfl⟩, rfl⟩, _, rfl, ?_, rfl⟩
    rw [hscope]
    rfl

theorem mapM_lowerFunction_eq_ok (hscope : c.scope = [.program]) :
    fs.mapM lowerFunction c = .ok ds c' ↔
      ∃ gs, (List.Forall₂ (Undefined c.program none) fs gs ∧ (fs.map (·.name)).Nodup ∧
        ∀ f ∈ fs, f.name ∉ c.program.valueNames) ∧
        ds = functionWork c.program.functions.size fs ∧
        c' = { c with program := c.program.withFree gs } := by
  induction fs generalizing c ds with
  | nil =>
    rw [Step.mapM_nil_eq_ok]
    constructor
    · rintro ⟨rfl, rfl⟩
      exact ⟨[], ⟨.nil, .nil, List.forall_mem_nil _⟩, rfl, by rw [withFree_nil]⟩
    · rintro ⟨_, ⟨⟨⟩, _⟩, rfl, rfl⟩
      exact ⟨rfl, by rw [withFree_nil]⟩
  | cons f fs ih =>
    have hscope' (q : Program) : ({ c with program := q } : Context).scope = [.program] := hscope
    have hnames {g : Function} (hg : Undefined c.program none f g) (name : String) :
        name ∈ (c.program.withFree [g]).valueNames ↔
          name ∈ c.program.valueNames ∨ name = f.name := by
      rw [mem_valueNames_withFree, List.map_singleton, List.mem_singleton, hg.signature.name]
    have hsize (g : Function) : (c.program.withFree [g]).functions.size =
        c.program.functions.size + 1 := size_withFunctions [g]
    rw [Step.mapM_cons_eq_ok]
    constructor
    · rintro ⟨d, c1, rest, hf, hfs, rfl⟩
      obtain ⟨g, ⟨hg, hfresh⟩, rfl, rfl⟩ := (lowerFunction_eq_ok hscope).mp hf
      obtain ⟨gs, ⟨hgs, hfreshes⟩, rfl, rfl⟩ := (ih (hscope' _)).mp hfs
      refine ⟨g :: gs, ⟨.cons hg (hgs.imp fun _ _ => Undefined.congr (by rfl)),
        (fresh_cons (hnames hg)).mpr ⟨hfresh, hfreshes⟩⟩, ?_, ?_⟩
      · rw [hsize]
        rfl
      · rw [withFree_withFree]
        rfl
    · rintro ⟨_, ⟨hall, hfreshes⟩, rfl, rfl⟩
      cases hall with
      | @cons _ g _ gs hg hgs =>
        obtain ⟨hfresh, hfreshes⟩ := (fresh_cons (hnames hg)).mp hfreshes
        refine ⟨_, _, _, (lowerFunction_eq_ok hscope).mpr ⟨g, ⟨hg, hfresh⟩, rfl, rfl⟩,
          (ih (hscope' _)).mpr
            ⟨gs, ⟨hgs.imp fun _ _ => Undefined.congr (by rfl), hfreshes⟩, rfl,
              by rw [withFree_withFree]; rfl⟩, ?_⟩
        rw [hsize]
        rfl

/-! ## Members of a model -/

/-- The methods of a model as it knows them. The first one has the id `n`. -/
def methodsFrom (n : Nat) : List Syntax.Function → List Method
  | [] => []
  | f :: fs => ⟨f.name, ⟨n⟩⟩ :: methodsFrom (n + 1) fs

theorem model_eq_ok : Build.model id p = .ok m p' ↔ p.getModel? id = some m ∧ p = p' := by
  unfold Build.model
  simp only [Step.bind_eq_ok, Step.get_eq_ok]
  constructor
  · rintro ⟨_, _, ⟨rfl, rfl⟩, h⟩
    cases hm : p.getModel? id with
    | none =>
      rw [hm] at h
      cases h
    | some m' =>
      rw [hm] at h
      cases h
      exact ⟨rfl, rfl⟩
  · rintro ⟨hm, rfl⟩
    refine ⟨p, p, ⟨rfl, rfl⟩, ?_⟩
    rw [hm]
    rfl

theorem setModel_eq_ok : Build.setModel id m p = .ok u p' ↔ p.withModel id m = p' :=
  Step.modify_eq_ok

theorem declareField_eq_ok {f : Field} {i : Nat} (hm : p.getModel? id = some model) :
    Build.declareField id f p = .ok i p' ↔ f.name ∉ model.memberNames ∧
      model.fields.length = i ∧ p.withModel id (model.addFields [f]) = p' := by
  simp only [Build.declareField, Step.bind_eq_ok, model_eq_ok, Step.kept, hm, Option.some.injEq,
    exists_eq_left', Step.unless_eq_ok, Bool.not_eq_true, Model.hasMember_eq_false,
    setModel_eq_ok, exists_const, Step.pure_eq_ok]
  refine and_congr_right fun hfresh => and_congr_right fun _ => ?_
  rw [assocInsert_of_notMem fun h => hfresh (List.mem_append_left _ h)]
  rfl

theorem lowerField_eq_ok {f : Syntax.Field} (hm : c.program.getModel? id = some model) :
    lowerField id f c = .ok u c' ↔
      ∃ f', (FieldOf c.program f f' ∧ f.name ∉ model.memberNames) ∧
        c' = ⟨c.program.withModel id (model.addFields [f']), c.scope⟩ := by
  unfold lowerField
  simp only [Step.bind_eq_ok, Lower.check_eq_ok, Step.kept, Lower.build_eq_ok,
    declareField_eq_ok hm, Step.pure_eq_ok]
  constructor
  · rintro ⟨_, hvalid, t, ht, _, _, ⟨_, ⟨hfresh, rfl, rfl⟩, rfl⟩, _, rfl⟩
    exact ⟨⟨f.name, t⟩, ⟨⟨hvalid, rfl, ht⟩, hfresh⟩, rfl⟩
  · rintro ⟨⟨_, t⟩, ⟨⟨hvalid, rfl, ht⟩, hfresh⟩, rfl⟩
    exact ⟨(), hvalid, t, ht, _, _, ⟨_, ⟨hfresh, rfl, rfl⟩, rfl⟩, trivial, rfl⟩

theorem forM_lowerField_eq_ok {fs : List Syntax.Field} (hm : c.program.getModel? id = some model) :
    fs.forM (lowerField id) c = .ok u c' ↔
      ∃ fields, (List.Forall₂ (FieldOf c.program) fs fields ∧ (fs.map (·.name)).Nodup ∧
        ∀ f ∈ fs, f.name ∉ model.memberNames) ∧
        c' = ⟨c.program.withModel id (model.addFields fields), c.scope⟩ := by
  induction fs generalizing c model with
  | nil =>
    have hself : c.program.withModel id (model.addFields []) =
        c.program := by
      rw [Model.addFields_nil]
      exact withModel_self hm
    rw [Step.forM_nil_eq_ok]
    constructor
    · rintro rfl
      exact ⟨[], ⟨.nil, .nil, List.forall_mem_nil _⟩, by rw [hself]⟩
    · rintro ⟨_, ⟨⟨⟩, _⟩, rfl⟩
      rw [hself]
  | cons f fs ih =>
    have hnames {f' : Field} (hf : FieldOf c.program f f') (name : String) :
        name ∈ (model.addFields [f']).memberNames ↔
          name ∈ model.memberNames ∨ name = f.name := by
      simp only [Model.memberNames, Model.addFields, NameMap.names_append, NameMap.names_ofNames,
        List.map_cons, List.map_nil, List.mem_append, List.mem_singleton, hf.name]
      exact or_right_comm
    rw [Step.forM_cons_eq_ok]
    constructor
    · rintro ⟨c1, hf, hfs⟩
      obtain ⟨f', ⟨hf', hfresh⟩, rfl⟩ := (lowerField_eq_ok hm).mp hf
      obtain ⟨fields, ⟨hfields, hfreshes⟩, rfl⟩ := (ih (getModel?_withModel_self hm)).mp hfs
      refine ⟨f' :: fields, ⟨.cons hf' (hfields.imp fun _ _ => FieldOf.congr (by rfl)),
        (fresh_cons (hnames hf')).mpr ⟨hfresh, hfreshes⟩⟩, ?_⟩
      rw [withModel_withModel, Model.addFields_addFields]
      rfl
    · rintro ⟨_, ⟨hall, hfreshes⟩, rfl⟩
      cases hall with
      | @cons _ f' _ fields hf' hfields =>
        obtain ⟨hfresh, hfreshes⟩ := (fresh_cons (hnames hf')).mp hfreshes
        refine ⟨_, (lowerField_eq_ok hm).mpr ⟨f', ⟨hf', hfresh⟩, rfl⟩,
          (ih (getModel?_withModel_self hm)).mpr
            ⟨fields, ⟨hfields.imp fun _ _ => FieldOf.congr (by rfl), hfreshes⟩, ?_⟩⟩
        rw [withModel_withModel, Model.addFields_addFields]
        rfl

theorem declareMethod_eq_ok {g : FunctionId} (hm : p.getModel? id = some model) :
    Build.declareMethod id name g p = .ok u p' ↔ name ∉ model.memberNames ∧
      p.withModel id (model.addMethods [⟨name, g⟩]) = p' := by
  simp only [Build.declareMethod, Step.bind_eq_ok, model_eq_ok, Step.kept, hm, Option.some.injEq,
    exists_eq_left', Step.unless_eq_ok, Bool.not_eq_true, Model.hasMember_eq_false,
    setModel_eq_ok]
  refine and_congr_right fun hfresh => ?_
  rw [assocInsert_of_notMem fun h => hfresh (List.mem_append_right _ h)]
  rfl

theorem allocMethod_eq_ok {g : Function} {i : FunctionId} :
    Build.allocMethod g p = .ok i p' ↔ ⟨p.functions.size⟩ = i ∧ p.withFunctions [g] = p' := by
  rw [Program.withFunctions, ← Array.push_eq_append, ← EStateM.Result.ok.injEq]
  rfl

theorem lowerMethod_eq_ok (hm : c.program.getModel? id = some model) :
    lowerMethod id f c = .ok u c' ↔
      ∃ g, (Undefined c.program (some id) f g ∧ f.name ∉ model.memberNames) ∧
        c' = ⟨(c.program.withFunctions [g]).withModel id
          (model.addMethods [⟨f.name, ⟨c.program.functions.size⟩⟩]), c.scope⟩ := by
  have hmf (g : Function) : (c.program.withFunctions [g]).getModel? id = some model := hm
  unfold lowerMethod
  simp only [Step.bind_eq_ok, Lower.check_eq_ok, Step.kept, Lower.build_eq_ok, allocMethod_eq_ok]
  constructor
  · rintro ⟨_, hvalid, ⟨qs, t⟩, _, hsignature, _, rfl, _, h, rfl⟩
    obtain ⟨hqs, hnodup, ht, rfl⟩ := lowerSignature_eq_ok.mp hsignature
    obtain ⟨hfresh, rfl⟩ := (declareMethod_eq_ok (hmf _)).mp h
    exact ⟨⟨f.name, qs, t, some id, []⟩, ⟨⟨⟨hvalid, rfl, hqs, hnodup, ht, rfl⟩, rfl⟩, hfresh⟩,
      rfl⟩
  · rintro ⟨⟨_, qs, t, _, _⟩, ⟨⟨⟨hvalid, rfl, hqs, hnodup, ht, rfl⟩, rfl⟩, hfresh⟩, rfl⟩
    exact ⟨(), hvalid, (qs, t), c, lowerSignature_eq_ok.mpr ⟨hqs, hnodup, ht, rfl⟩,
      ⟨c.program.functions.size⟩, rfl, _,
      (declareMethod_eq_ok (hmf _)).mpr ⟨hfresh, rfl⟩, rfl⟩

theorem forM_lowerMethod_eq_ok (hm : c.program.getModel? id = some model) :
    fs.forM (lowerMethod id) c = .ok u c' ↔
      ∃ gs, (List.Forall₂ (Undefined c.program (some id)) fs gs ∧ (fs.map (·.name)).Nodup ∧
        ∀ f ∈ fs, f.name ∉ model.memberNames) ∧
        c' = ⟨(c.program.withFunctions gs).withModel id
          (model.addMethods (methodsFrom c.program.functions.size fs)), c.scope⟩ := by
  induction fs generalizing c model with
  | nil =>
    have hself : (c.program.withFunctions []).withModel id
        (model.addMethods (methodsFrom c.program.functions.size [])) = c.program := by
      rw [methodsFrom, Model.addMethods_nil, withFunctions_nil]
      exact withModel_self hm
    rw [Step.forM_nil_eq_ok]
    constructor
    · rintro rfl
      exact ⟨[], ⟨.nil, .nil, List.forall_mem_nil _⟩, by rw [hself]⟩
    · rintro ⟨_, ⟨⟨⟩, _⟩, rfl⟩
      rw [hself]
  | cons f fs ih =>
    have hnames (name : String) :
        name ∈ (model.addMethods [⟨f.name, ⟨c.program.functions.size⟩⟩]).memberNames ↔
          name ∈ model.memberNames ∨ name = f.name := by
      simp only [Model.memberNames, Model.addMethods, NameMap.names_append, List.mem_append]
      exact or_assoc.symm.trans (or_congr_right List.mem_singleton)
    have hmf (g : Function) : (c.program.withFunctions [g]).getModel? id = some model := hm
    -- the functions and the model are different tables
    have hcommute (g : Function) (gs : List Function) :
        (((c.program.withFunctions [g]).withModel id
          (model.addMethods [⟨f.name, ⟨c.program.functions.size⟩⟩])).withFunctions gs).withModel id
          ((model.addMethods [⟨f.name, ⟨c.program.functions.size⟩⟩]).addMethods
            (methodsFrom (c.program.withFunctions [g]).functions.size fs)) =
        (c.program.withFunctions (g :: gs)).withModel id
          (model.addMethods (methodsFrom c.program.functions.size (f :: fs))) := by
      have hcons : c.program.withFunctions (g :: gs) =
          (c.program.withFunctions [g]).withFunctions gs := (withFunctions_withFunctions [g] gs).symm
      rw [hcons, size_withFunctions, Model.addMethods_addMethods]
      exact withModel_withModel (p := (c.program.withFunctions [g]).withFunctions gs) _ _
    rw [Step.forM_cons_eq_ok]
    constructor
    · rintro ⟨c1, hf, hfs⟩
      obtain ⟨g, ⟨hg, hfresh⟩, rfl⟩ := (lowerMethod_eq_ok hm).mp hf
      obtain ⟨gs, ⟨hgs, hfreshes⟩, rfl⟩ := (ih (getModel?_withModel_self (hmf g))).mp hfs
      refine ⟨g :: gs, ⟨.cons hg (hgs.imp fun _ _ => Undefined.congr (by rfl)),
        (fresh_cons hnames).mpr ⟨hfresh, hfreshes⟩⟩, ?_⟩
      rw [← hcommute]
      rfl
    · rintro ⟨_, ⟨hall, hfreshes⟩, rfl⟩
      cases hall with
      | @cons _ g _ gs hg hgs =>
        obtain ⟨hfresh, hfreshes⟩ := (fresh_cons hnames).mp hfreshes
        refine ⟨_, (lowerMethod_eq_ok hm).mpr ⟨g, ⟨hg, hfresh⟩, rfl⟩,
          (ih (getModel?_withModel_self (hmf g))).mpr
            ⟨gs, ⟨hgs.imp fun _ _ => Undefined.congr (by rfl), hfreshes⟩, ?_⟩⟩
        rw [← hcommute]
        rfl

/-- A model with its members. Its first method has the id `n`. -/
def modelOf (n : Nat) (md : Syntax.Model) (fields : List Field) : Model :=
  { name := md.name
    fields
    methods := methodsFrom n md.methods
    fieldMap := .ofNames (fun i => i) 0 (fields.map (·.name))
    methodMap := (methodsFrom n md.methods).map fun x => (x.name, x.function) }

/-- The members of a model as their declarations say. -/
structure MembersOf (p : Program) (id : ModelId) (md : Syntax.Model) (fields : List Field)
    (gs : List Function) : Prop where
  fields : List.Forall₂ (FieldOf p) md.fields fields
  methods : List.Forall₂ (Undefined p (some id)) md.methods gs
  distinct : (md.fields.map (·.name) ++ md.methods.map (·.name)).Nodup

theorem map_of_forall₂ {α β γ : Type} {f : α → γ} {g : β → γ} {xs : List α} {ys : List β}
    (h : List.Forall₂ (fun x y => g y = f x) xs ys) : ys.map g = xs.map f := by
  induction h with
  | nil => rfl
  | cons hx _ ih => rw [List.map_cons, List.map_cons, hx, ih]

theorem FieldOf.map_name {fs : List Syntax.Field} (h : List.Forall₂ (FieldOf p) fs fields) :
    fields.map (·.name) = fs.map (·.name) :=
  map_of_forall₂ (h.imp fun _ _ hf => hf.name)

theorem lowerSkeleton_eq_ok (hscope : c.scope = [.program])
    (hm : c.program.getModel? id = some { name := md.name }) :
    lowerSkeleton id md c = .ok d c' ↔
      ∃ fields gs, MembersOf c.program id md fields gs ∧ d = .ofModel id md ∧
        c' = ⟨(c.program.withFunctions gs).withModel id
          (modelOf c.program.functions.size md fields), c.scope⟩ := by
  have hnames {fields : List Field} (h : List.Forall₂ (FieldOf c.program) md.fields fields) :
      (Model.addFields { name := md.name } fields).memberNames = md.fields.map (·.name) := by
    rw [Model.memberNames, Model.addFields, NameMap.names_append, NameMap.names_ofNames,
      FieldOf.map_name h]
    exact List.append_nil _
  unfold lowerSkeleton
  simp only [Step.bind_eq_ok, defer, Step.get_eq_ok, Step.pure_eq_ok]
  constructor
  · rintro ⟨_, _, hfields, _, _, hmethods, _, _, ⟨rfl, rfl⟩, rfl, rfl⟩
    obtain ⟨fields, ⟨hfs, hnodup, hfresh⟩, rfl⟩ := (forM_lowerField_eq_ok hm).mp hfields
    obtain ⟨gs, ⟨hgs, hnodup', hfresh'⟩, rfl⟩ :=
      (forM_lowerMethod_eq_ok (getModel?_withModel_self hm)).mp hmethods
    refine ⟨fields, gs, ⟨hfs, ?_, ?_⟩, ?_, ?_⟩
    · exact hgs.imp fun _ _ => Undefined.congr (by rfl)
    · refine List.nodup_append.mpr ⟨hnodup, hnodup', ?_⟩
      rintro name hmem _ hmem' rfl
      obtain ⟨f, hf, rfl⟩ := List.mem_map.mp hmem'
      refine hfresh' f hf ?_
      rw [hnames hfs]
      exact hmem
    · rw [hscope]
      rfl
    · exact congrArg (fun p => (⟨p, c.scope⟩ : Context))
        (withModel_withModel (p := c.program.withFunctions gs) _ _)
  · rintro ⟨fields, gs, ⟨hfs, hgs, hdistinct⟩, rfl, rfl⟩
    obtain ⟨hnodup, hnodup', hapart⟩ := List.nodup_append.mp hdistinct
    refine ⟨(), _, (forM_lowerField_eq_ok hm).mpr ⟨fields, ⟨hfs, hnodup, ?_⟩, rfl⟩, (), _,
      (forM_lowerMethod_eq_ok (getModel?_withModel_self hm)).mpr ⟨gs, ⟨?_, hnodup', ?_⟩, rfl⟩, _, _,
      ⟨rfl, rfl⟩, ?_, ?_⟩
    · intro f _
      exact List.not_mem_nil
    · exact hgs.imp fun _ _ => Undefined.congr (by rfl)
    · intro f hf hmem
      rw [hnames hfs] at hmem
      exact hapart f.name hmem f.name (List.mem_map.mpr ⟨f, hf, rfl⟩) rfl
    · rw [hscope]
      rfl
    · exact congrArg (fun p => (⟨p, c.scope⟩ : Context))
        (withModel_withModel (p := c.program.withFunctions gs) _ _)

/-! ## Declaring everything -/

/-- The ids of models, from `n` on. -/
def modelIds (n : Nat) (mds : List Syntax.Model) : List ModelId :=
  (List.range' n mds.length).map ModelId.mk

/-- The models of a module with all their members. The first method of the first one has the id
`n`. -/
def modelsFrom (n : Nat) : List Syntax.Model → List (List Field × List Function) → List Model
  | md :: mds, x :: xs =>
    modelOf n md x.1 :: modelsFrom (n + x.2.length) mds xs
  | _, _ => []

/-- The program with more functions and other models. -/
def withTables (p : Program) (gs : List Function) (models : List Model) : Program :=
  { p with functions := p.functions ++ gs.toArray, models := models.toArray }

theorem MembersOf.congr (h : p'.modelMap = p.modelMap) {gs : List Function}
    (hmembers : MembersOf p' id md fields gs) : MembersOf p id md fields gs :=
  ⟨hmembers.fields.imp fun _ _ => FieldOf.congr h, hmembers.methods.imp fun _ _ => Undefined.congr h,
    hmembers.distinct⟩

/-- The members of the models after those in `done`. -/
theorem mapM_lowerSkeleton_eq_ok {mds : List Syntax.Model} {done : List Model}
    (hscope : c.scope = [.program]) (hmodels : c.program.models =
      (done ++ mds.map fun md => ({ name := md.name } : Model)).toArray) :
    ((modelIds done.length mds).zip mds).mapM (fun x => lowerSkeleton x.1 x.2) c = .ok ds c' ↔
      ∃ members, List.Forall₂ (fun x y => MembersOf c.program x.1 x.2 y.1 y.2)
          ((modelIds done.length mds).zip mds) members ∧
        ds = ((modelIds done.length mds).zip mds).map (fun x => .ofModel x.1 x.2) ∧
        c' = ⟨withTables c.program (members.flatMap (·.2))
          (done ++ modelsFrom c.program.functions.size mds members), c.scope⟩ := by
  induction mds generalizing c done ds with
  | nil =>
    have hself : (⟨withTables c.program [] (done ++ []), c.scope⟩ : Context) = c := by
      rw [List.map_nil] at hmodels
      rw [withTables, Array.append_empty, ← hmodels]
    simp only [modelIds, List.zip_nil_right]
    rw [Step.mapM_nil_eq_ok]
    constructor
    · rintro ⟨rfl, rfl⟩
      exact ⟨[], .nil, rfl, hself.symm⟩
    · rintro ⟨_, ⟨⟩, rfl, rfl⟩
      exact ⟨rfl, hself.symm⟩
  | cons md mds ih =>
    have hscope' (q : Program) : ({ c with program := q } : Context).scope = [.program] := hscope
    have hids : modelIds done.length (md :: mds) =
        ⟨done.length⟩ :: modelIds (done.length + 1) mds := by
      rw [modelIds, List.length_cons, List.range'_succ]
      rfl
    have hm : c.program.getModel? ⟨done.length⟩ = some { name := md.name } := by
      rw [Program.getModel?, hmodels]
      simp
    -- the first model is done, and the others are still without members
    have hrest (gs : List Function) (model : Model) :
        ((c.program.withFunctions gs).withModel ⟨done.length⟩ model).models =
          (done ++ [model] ++ mds.map fun md => ({ name := md.name } : Model)).toArray := by
      show (c.program.models.setIfInBounds done.length model) = _
      rw [hmodels]
      simp
    have hprogram (x : List Field × List Function) (xs : List (List Field × List Function)) :
        withTables ((c.program.withFunctions x.2).withModel ⟨done.length⟩
            (modelOf c.program.functions.size md x.1)) (xs.flatMap (·.2))
          (done ++ [modelOf c.program.functions.size md x.1] ++
            modelsFrom (c.program.withFunctions x.2).functions.size mds xs) =
        withTables c.program ((x :: xs).flatMap (·.2))
          (done ++ modelsFrom c.program.functions.size (md :: mds) (x :: xs)) := by
      rw [size_withFunctions, List.append_assoc, List.flatMap_cons]
      simp only [withTables, Program.withModel, Program.withFunctions, Array.append_assoc,
        List.append_toArray]
      rfl
    have hdone (model : Model) : done.length + 1 = (done ++ [model]).length := by
      rw [List.length_append]
      rfl
    rw [hids, List.zip_cons_cons, Step.mapM_cons_eq_ok]
    constructor
    · rintro ⟨d, c1, rest, hd, hds, rfl⟩
      obtain ⟨fields, gs, hmembers, rfl, rfl⟩ := (lowerSkeleton_eq_ok hscope hm).mp hd
      have hone := hdone (modelOf c.program.functions.size md fields)
      rw [hone] at hds
      obtain ⟨members, hall, rfl, rfl⟩ := (ih (hscope' _) (hrest gs _)).mp hds
      refine ⟨(fields, gs) :: members, .cons hmembers ?_, ?_, ?_⟩
      · rw [hone]
        exact hall.imp fun _ _ => MembersOf.congr (by rfl)
      · rw [List.map_cons, hone]
      · rw [← hprogram]
        rfl
    · rintro ⟨_, hall, rfl, rfl⟩
      cases hall with
      | @cons _ x _ members hmembers hall =>
        have hone := hdone (modelOf c.program.functions.size md x.1)
        refine ⟨_, _, _, (lowerSkeleton_eq_ok hscope hm).mpr ⟨x.1, x.2, hmembers, rfl, rfl⟩, ?_,
          rfl⟩
        rw [hone] at hall ⊢
        refine (ih (hscope' _) (hrest x.2 _)).mpr ⟨members, ?_, rfl, ?_⟩
        · exact hall.imp fun _ _ => MembersOf.congr (by rfl)
        · rw [← hprogram]
          rfl

/-- A program with models that have no members. -/
def bareProgram (name : String) (mds : List Syntax.Model) : Program :=
  { name
    models := (mds.map fun md => ({ name := md.name } : Model)).toArray
    modelMap := .ofNames ModelId.mk 0 (mds.map (·.name)) }

/-- The models of a module with their ids. -/
def numbered (mds : List Syntax.Model) : List (ModelId × Syntax.Model) :=
  (modelIds 0 mds).zip mds

theorem map_snd_numbered (mds : List Syntax.Model) : (numbered mds).map (·.2) = mds := by
  rw [numbered, List.map_snd_zip]
  simp [modelIds]

/-- What the declarations of a module give: constants, free functions, and the fields and methods of
each model. -/
structure Tables where
  constants : List Constant
  functions : List Function
  members : List (List Field × List Function)

/-- A module whose declarations succeed, and what they give. -/
structure Declares (m : Syntax.Module) (ts : Tables) : Prop where
  modelNames : ∀ md ∈ m.models, checkTypeName md.name = .ok ()
  models : (m.models.map (·.name)).Nodup
  constants : ConstantsOf (bareProgram m.name m.models) m.constants ts.constants
  functions : List.Forall₂ (Undefined (bareProgram m.name m.models) none) m.functions ts.functions
  values : (m.constants.map (·.name) ++ m.functions.map (·.name)).Nodup
  members : List.Forall₂ (fun x y => MembersOf (bareProgram m.name m.models) x.1 x.2 y.1 y.2)
    (numbered m.models) ts.members

/-- The program after all declarations. -/
def declaredProgram (m : Syntax.Module) (ts : Tables) : Program :=
  { name := m.name
    constants := ts.constants.toArray
    functions := (ts.functions ++ ts.members.flatMap (·.2)).toArray
    models := (modelsFrom ts.functions.length m.models ts.members).toArray
    constantMap := .ofNames ConstantId.mk 0 (ts.constants.map (·.name))
    functionMap := .ofNames FunctionId.mk 0 (ts.functions.map (·.name))
    modelMap := .ofNames ModelId.mk 0 (m.models.map (·.name)) }

/-- The work that is left after all declarations. -/
def declaredWork (m : Syntax.Module) : List Deferred :=
  functionWork 0 m.functions ++ (numbered m.models).map fun x => .ofModel x.1 x.2

theorem valueNames_bareProgram (name : String) (mds : List Syntax.Model) :
    (bareProgram name mds).valueNames = [] := rfl

/-- Declaring a module succeeds exactly if its names are valid and distinct and its types and
constants can be lowered, and gives tables and work that are known. -/
theorem declareAll_eq_ok {m : Syntax.Module} :
    declareAll m ⟨{ name := m.name }, []⟩ = .ok ds c' ↔
      ∃ ts, Declares m ts ∧ ds = declaredWork m ∧ c' = ⟨declaredProgram m ts, []⟩ := by
  have hbare : ({ name := m.name } : Program).withModels (m.models.map (·.name)) =
      bareProgram m.name m.models := by
    simp [Program.withModels, bareProgram]
  have hnames (ks : List Constant) {name : String} :
      name ∈ ((bareProgram m.name m.models).withConstants ks).valueNames ↔
        name ∈ ks.map (·.name) := by
    rw [mem_valueNames_withConstants, valueNames_bareProgram]
    simp
  have hmodels (ks : List Constant) (gs : List Function) :
      (((bareProgram m.name m.models).withConstants ks).withFree gs).models =
        ([] ++ m.models.map fun md : Syntax.Model => ({ name := md.name } : Model)).toArray := rfl
  have hprogram (ts : Tables) {p : Program}
      (hp : ((bareProgram m.name m.models).withConstants ts.constants).withFree ts.functions = p) :
      withTables p (ts.members.flatMap (·.2))
        ([] ++ modelsFrom p.functions.size m.models ts.members) = declaredProgram m ts := by
    rw [← hp, show (Program.withFree _ ts.functions).functions.size = _ from size_withFunctions _]
    simp [withTables, Program.withFree, Program.withFunctions, Program.withConstants, bareProgram,
      declaredProgram]
  unfold declareAll
  simp only [Lower.withFrame_eq_ok, Step.bind_eq_ok, Step.pure_eq_ok, mapM_declareModel_eq_ok,
    hbare]
  constructor
  · rintro ⟨_, ⟨_, _, ⟨⟨hvalid, hnodup, _⟩, rfl, rfl⟩, _, _, hconstants, fs, _, hfs, models, _,
      hmembers, rfl, rfl⟩, rfl⟩
    obtain ⟨ks, hks, rfl⟩ := (forM_lowerConstant_eq_ok (c := ⟨_, _⟩) rfl).mp hconstants
    obtain ⟨gs, ⟨hgs, hnodup', hfresh⟩, rfl, rfl⟩ :=
      (mapM_lowerFunction_eq_ok (c := ⟨_, _⟩) rfl).mp hfs
    obtain ⟨members, hxs, rfl, rfl⟩ :=
      (mapM_lowerSkeleton_eq_ok (c := ⟨_, _⟩) rfl (hmodels ks gs)).mp hmembers
    obtain ⟨hksnames, hksnodup, _⟩ := hks.names
    refine ⟨⟨ks, gs, members⟩, ⟨hvalid, hnodup, hks, ?_, ?_, ?_⟩, rfl, ?_⟩
    · exact hgs.imp fun _ _ => Undefined.congr (by rfl)
    · refine List.nodup_append.mpr ⟨hksnodup, hnodup', ?_⟩
      rintro name hmem _ hmem' rfl
      obtain ⟨f, hf, rfl⟩ := List.mem_map.mp hmem'
      refine hfresh f hf ((hnames ks).mpr ?_)
      rw [hksnames]
      exact hmem
    · exact hxs.imp fun _ _ => MembersOf.congr (by rfl)
    · rw [← hprogram _ rfl]
      rfl
  · rintro ⟨⟨ks, gs, members⟩, ⟨hvalid, hnodup, hks, hgs, hvalues, hmembers⟩, rfl, rfl⟩
    obtain ⟨_, hnodup', hapart⟩ := List.nodup_append.mp hvalues
    obtain ⟨hksnames, _, _⟩ := hks.names
    refine ⟨⟨declaredProgram m ⟨ks, gs, members⟩, [.program]⟩,
      ⟨_, _, ⟨⟨hvalid, hnodup, fun _ _ => List.not_mem_nil⟩, rfl, rfl⟩, (), _,
        (forM_lowerConstant_eq_ok (c := ⟨_, _⟩) rfl).mpr ⟨ks, hks, rfl⟩, _, _,
        (mapM_lowerFunction_eq_ok (c := ⟨_, _⟩) rfl).mpr
          ⟨gs, ⟨hgs.imp fun _ _ => Undefined.congr (by rfl), hnodup', ?_⟩, rfl, rfl⟩, _, _,
        (mapM_lowerSkeleton_eq_ok (c := ⟨_, _⟩) rfl (hmodels ks gs)).mpr
          ⟨members, hmembers.imp fun _ _ => MembersOf.congr (by rfl), rfl, rfl⟩, rfl, ?_⟩, rfl⟩
    · intro f hf hmem
      have hmem := (hnames ks).mp hmem
      rw [hksnames] at hmem
      exact hapart f.name hmem f.name (List.mem_map.mpr ⟨f, hf, rfl⟩) rfl
    · rw [← hprogram _ rfl]
      rfl

end Scribe.Lowering
