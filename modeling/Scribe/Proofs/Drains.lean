import Scribe.Proofs.Bodies

/-!
# How the queue is worked off

`Drains p ds p'` says that the work `ds` can be run one piece after the other and turns `p` into
`p'`. Lowering a module succeeds exactly if its declarations do and the work that they leave can be
run (`lower_eq_ok`).

Work stores bodies and takes locals. What it leaves alone is the program without its bodies and
locals (`Program.stripped`).
-/

namespace Scribe.Core

open Scribe.Lowering

/-! ## Programs without bodies -/

/-- A function without its body. -/
def Function.stripped (f : Function) : Function :=
  { f with body := [] }

/-- A model without its overrides. -/
def Model.stripped (m : Model) : Model :=
  { m with equality := none, hashing := none }

/-- A program without bodies, overrides and locals. -/
def Program.stripped (p : Program) : Program :=
  { p with
    functions := p.functions.map Function.stripped
    models := p.models.map Model.stripped
    locals := #[] }

section Stripped

variable {p q : Program}

theorem getFunction?_stripped (p : Program) (id : FunctionId) :
    p.stripped.getFunction? id = (p.getFunction? id).map Function.stripped :=
  Array.getElem?_map

theorem getModel?_stripped (p : Program) (id : ModelId) :
    p.stripped.getModel? id = (p.getModel? id).map Model.stripped :=
  Array.getElem?_map

theorem function?_stripped (p : Program) (name : String) :
    p.stripped.function? name = p.function? name :=
  rfl

theorem model?_stripped (p : Program) (name : String) :
    p.stripped.model? name = p.model? name :=
  rfl

theorem Program.constants_of_stripped (h : p.stripped = q.stripped) :
    p.constants = q.constants ∧ p.constantMap = q.constantMap := by
  have hconstants := congrArg Program.constants h
  have hmap := congrArg Program.constantMap h
  exact ⟨hconstants, hmap⟩

theorem Program.indexed_stripped : p.stripped.Indexed ↔ p.Indexed := by
  have hfunctions (name : String) (id : FunctionId) :
      (∃ f, p.stripped.getFunction? id = some f ∧ f.owner = none ∧ f.name = name) ↔
        ∃ f, p.getFunction? id = some f ∧ f.owner = none ∧ f.name = name := by
    rw [getFunction?_stripped]
    simp [Function.stripped]
  have hmodels (name : String) (id : ModelId) :
      (∃ m, p.stripped.getModel? id = some m ∧ m.name = name) ↔
        ∃ m, p.getModel? id = some m ∧ m.name = name := by
    rw [getModel?_stripped]
    simp [Model.stripped]
  have hget {id : ModelId} {m : Model} (hm : p.getModel? id = some m) :
      p.stripped.getModel? id = some m.stripped := by
    rw [getModel?_stripped, hm]
    rfl
  constructor
  · intro h
    exact ⟨h.constants, h.functions.congr hfunctions, h.models.congr hmodels,
      fun hm => (h.fields (hget hm) :), fun hm => (h.methods (hget hm) :)⟩
  · intro h
    refine ⟨h.constants, h.functions.congr fun name id => (hfunctions name id).symm,
      h.models.congr fun name id => (hmodels name id).symm, ?_, ?_⟩
    all_goals
      intro id m hm
      rw [getModel?_stripped, Option.map_eq_some_iff] at hm
      obtain ⟨m, hm, rfl⟩ := hm
    · exact (h.fields hm :)
    · exact (h.methods hm :)

variable {f : Function} {m : Model} {id : FunctionId}

theorem Function.SameSignature.of_stripped {g : Function} (h : g.stripped = f.stripped) :
    f.SameSignature g := by
  have hname := congrArg Function.name h
  have hparameters := congrArg Function.parameters h
  have hreturn := congrArg Function.returnType h
  have howner := congrArg Function.owner h
  exact ⟨hname, hparameters, hreturn, howner⟩

theorem Model.same_of_stripped {n : Model} (h : n.stripped = m.stripped) :
    n.name = m.name ∧ n.fields = m.fields ∧ n.methods = m.methods ∧ n.fieldMap = m.fieldMap ∧
      n.methodMap = m.methodMap := by
  have hname := congrArg Model.name h
  have hfields := congrArg Model.fields h
  have hmethods := congrArg Model.methods h
  have hfieldMap := congrArg Model.fieldMap h
  have hmethodMap := congrArg Model.methodMap h
  exact ⟨hname, hfields, hmethods, hfieldMap, hmethodMap⟩

theorem getFunction?_of_stripped (h : p.stripped = q.stripped) (hf : p.getFunction? id = some f) :
    ∃ g, q.getFunction? id = some g ∧ g.stripped = f.stripped := by
  have hstripped := getFunction?_stripped q id
  rw [← h, getFunction?_stripped, hf] at hstripped
  exact Option.map_eq_some_iff.mp hstripped.symm

theorem getModel?_of_stripped (h : p.stripped = q.stripped) {id : ModelId}
    (hm : p.getModel? id = some m) : ∃ n, q.getModel? id = some n ∧ n.stripped = m.stripped := by
  have hstripped := getModel?_stripped q id
  rw [← h, getModel?_stripped, hm] at hstripped
  exact Option.map_eq_some_iff.mp hstripped.symm

theorem Program.Skeleton.stripped (hp : p.Skeleton) : p.stripped = p := by
  have hfunctions : p.functions.map Function.stripped = p.functions := by
    refine Array.ext_getElem? fun j => ?_
    rw [Array.getElem?_map]
    cases hf : p.functions[j]? with
    | none => rfl
    | some f =>
      have hbody : f.body = [] := hp.bodies (show p.getFunction? ⟨j⟩ = some f from hf)
      rw [Option.map_some, Function.stripped, ← hbody]
  have hmodels : p.models.map Model.stripped = p.models := by
    refine Array.ext_getElem? fun j => ?_
    rw [Array.getElem?_map]
    cases hm : p.models[j]? with
    | none => rfl
    | some m =>
      obtain ⟨hequality, hhashing⟩ := hp.overrides (show p.getModel? ⟨j⟩ = some m from hm)
      rw [Option.map_some, Model.stripped, ← hequality, ← hhashing]
  unfold Program.stripped
  rw [hfunctions, hmodels, ← hp.locals]

theorem AddsLocals.stripped {ids : List LocalId} (h : AddsLocals p q ids) :
    q.stripped = p.stripped := by
  rw [h.same]
  rfl

theorem stripped_withBody (hf : p.getFunction? id = some f) (body : Block) :
    (p.withBody id f body).stripped = p.stripped := by
  have hfunctions : (p.functions.setIfInBounds id.index { f with body }).map Function.stripped =
      p.functions.map Function.stripped := by
    refine Array.ext_getElem? fun j => ?_
    rw [Array.getElem?_map, Array.getElem?_map, getElem?_set_of_some hf]
    by_cases hj : j = id.index
    · rw [if_pos hj, hj]
      rw [Program.getFunction?] at hf
      rw [hf]
      rfl
    · rw [if_neg hj]
  unfold Program.stripped Program.withBody
  rw [hfunctions]

theorem stripped_withModel {id : ModelId} {m' : Model} (hm : p.getModel? id = some m)
    (hstripped : m'.stripped = m.stripped) : (p.withModel id m').stripped = p.stripped := by
  have hmodels : (p.models.setIfInBounds id.index m').map Model.stripped =
      p.models.map Model.stripped := by
    refine Array.ext_getElem? fun j => ?_
    rw [Array.getElem?_map, Array.getElem?_map, getElem?_set_of_some hm]
    by_cases hj : j = id.index
    · rw [if_pos hj, hj]
      rw [Program.getModel?] at hm
      rw [hm, Option.map_some, Option.map_some, hstripped]
    · rw [if_neg hj]
  unfold Program.stripped Program.withModel
  rw [hmodels]

end Stripped

/-! ## Storing a body -/

/-- The program with the body of a callable replaced, if it has that callable. -/
def Program.store (p : Program) (callable : Callable) (body : Block) : Option Program :=
  match callable with
  | .function id => (p.getFunction? id).map fun f => p.withBody id f body
  | .equality id => (p.getModel? id).bind fun m => m.equality.map fun e =>
    p.withModel id { m with equality := some { e with body } }
  | .hashing id => (p.getModel? id).bind fun m => m.hashing.map fun _ =>
    p.withModel id { m with hashing := some body }

section Store

variable {p p' : Program} {callable : Callable} {body : Block}

theorem Program.store_eq_some (h : p.store callable body = some p') :
    Stored p p' callable body ∧ p'.stripped = p.stripped := by
  cases callable with
  | function id =>
    obtain ⟨f, hf, rfl⟩ := Option.map_eq_some_iff.mp h
    exact ⟨stored_function hf body, stripped_withBody hf body⟩
  | equality id =>
    obtain ⟨m, hm, hstore⟩ := Option.bind_eq_some_iff.mp h
    obtain ⟨e, he, rfl⟩ := Option.map_eq_some_iff.mp hstore
    exact ⟨stored_equality hm he body, stripped_withModel hm rfl⟩
  | hashing id =>
    obtain ⟨m, hm, hstore⟩ := Option.bind_eq_some_iff.mp h
    obtain ⟨b, hb, rfl⟩ := Option.map_eq_some_iff.mp hstore
    exact ⟨stored_hashing hm hb body, stripped_withModel hm rfl⟩

theorem Program.exists_store {old : Block} (h : p.body? callable = some old) (body : Block) :
    ∃ p', p.store callable body = some p' := by
  cases callable with
  | function id =>
    obtain ⟨f, hf, _⟩ := Option.map_eq_some_iff.mp h
    exact ⟨_, Option.map_eq_some_iff.mpr ⟨f, hf, rfl⟩⟩
  | equality id =>
    obtain ⟨e, he, _⟩ := Option.map_eq_some_iff.mp h
    obtain ⟨m, hm, he⟩ := Option.bind_eq_some_iff.mp he
    exact ⟨_, Option.bind_eq_some_iff.mpr ⟨m, hm, Option.map_eq_some_iff.mpr ⟨e, he, rfl⟩⟩⟩
  | hashing id =>
    obtain ⟨m, hm, hb⟩ := Option.bind_eq_some_iff.mp h
    exact ⟨_, Option.bind_eq_some_iff.mpr ⟨m, hm, Option.map_eq_some_iff.mpr ⟨old, hb, rfl⟩⟩⟩

end Store

end Scribe.Core

namespace Scribe.Lowering

open Scribe.Core

variable {c c' : Context}

/-! ## Running a body -/

/-- The block of a body. -/
def Body.block : Body → Syntax.Block
  | .function _ block | .method _ block | .equality _ block | .hashing _ block => block

/-- A block in a scope becomes the body of a callable. -/
structure LowersBody (callable : Callable) (block : Syntax.Block) (p : Program) (scope : Scope)
    (body : Block) (p' : Program) : Prop where
  block : ∃ c1, ElabStmts ⟨p, .block [] :: scope⟩ block body c1 ∧ c1.program = p'
  named : ∃ name, p'.callableName? callable = some name
  returns : ∃ t, p'.callableReturnType? callable = some t ∧
    (t = .void ∨ body.getLast?.any Stmt.isReturn = true)

theorem lowerBody_eq_ok {callable : Callable} {block : Syntax.Block} {body : Block} :
    lowerBody callable block c = .ok body c' ↔
      LowersBody callable block c.program c.scope body c'.program ∧ c'.scope = c.scope := by
  simp only [lowerBody, lowerBlock, Step.bind_eq_ok, Lower.withFrame_eq_ok, lowerStmts_eq_ok,
    Lower.check_eq_ok, Checked.ofOption_eq_ok, checkTerminal_eq_ok, Step.pure_eq_ok]
  constructor
  · rintro ⟨_, _, ⟨c1, hblock, rfl⟩, name, _, ⟨hname, rfl⟩, t, _, ⟨ht, rfl⟩, _, _, ⟨hterminal, rfl⟩,
      rfl, rfl⟩
    exact ⟨⟨⟨c1, hblock, rfl⟩, ⟨name, hname⟩, t, ht, hterminal⟩, hblock.adds.2⟩
  · rintro ⟨⟨⟨c1, hblock, hprogram⟩, ⟨name, hname⟩, t, ht, hterminal⟩, hscope⟩
    have hc : { c1 with scope := c1.scope.tail } = c' := by
      rw [hblock.adds.2, hprogram]
      show (⟨c'.program, c.scope⟩ : Context) = c'
      rw [← hscope]
    exact ⟨body, c', ⟨c1, hblock, hc⟩, name, c', ⟨hname, rfl⟩, t, c', ⟨ht, rfl⟩, (), c',
      ⟨hterminal, rfl⟩, rfl, rfl⟩

/-- Running a body lowers its block and stores the result. -/
theorem runBody_eq_ok {b : Body} {u : Unit} :
    runBody b c = .ok u c' ↔
      ∃ body p1, LowersBody b.callable b.block c.program c.scope body p1 ∧
        p1.store b.callable body = some c'.program ∧ c'.scope = c.scope := by
  have hfunction {id : FunctionId} {block : Syntax.Block} :
      (do
        let body ← lowerBody (.function id) block
        Lower.build (Build.setBody id body) : Lower Unit) c = .ok u c' ↔
      ∃ body p1, LowersBody (.function id) block c.program c.scope body p1 ∧
        p1.store (.function id) body = some c'.program ∧ c'.scope = c.scope := by
    simp only [Step.bind_eq_ok, lowerBody_eq_ok, Lower.build_eq_ok]
    constructor
    · rintro ⟨body, c1, ⟨hbody, hscope⟩, program, hset, rfl⟩
      obtain ⟨t, ht, _⟩ := hbody.returns
      obtain ⟨f, hf, _⟩ := Option.map_eq_some_iff.mp ht
      obtain rfl := (setBody_eq_ok hf).mp hset
      exact ⟨body, c1.program, hbody, Option.map_eq_some_iff.mpr ⟨f, hf, rfl⟩, hscope⟩
    · rintro ⟨body, p1, hbody, hstore, hscope⟩
      obtain ⟨f, hf, hprogram⟩ := Option.map_eq_some_iff.mp hstore
      refine ⟨body, ⟨p1, c.scope⟩, ⟨hbody, rfl⟩, _, (setBody_eq_ok hf).mpr rfl, ?_⟩
      rw [hprogram, ← hscope]
  cases b with
  | function id block | method id block => exact hfunction
  | equality id block =>
    simp only [runBody, Step.bind_eq_ok, lowerBody_eq_ok, modelAt_eq_ok]
    constructor
    · rintro ⟨body, c1, ⟨hbody, hscope⟩, m, _, ⟨hm, rfl⟩, h⟩
      cases he : m.equality with
      | none =>
        rw [he] at h
        cases h
      | some e =>
        rw [he] at h
        obtain ⟨program, hset, rfl⟩ := Lower.build_eq_ok.mp h
        obtain rfl := setModel_eq_ok.mp hset
        exact ⟨body, c1.program, hbody, Option.bind_eq_some_iff.mpr
          ⟨m, hm, Option.map_eq_some_iff.mpr ⟨e, he, rfl⟩⟩, hscope⟩
    · rintro ⟨body, p1, hbody, hstore, hscope⟩
      obtain ⟨m, hm, hstore⟩ := Option.bind_eq_some_iff.mp hstore
      obtain ⟨e, he, hprogram⟩ := Option.map_eq_some_iff.mp hstore
      refine ⟨body, ⟨p1, c.scope⟩, ⟨hbody, rfl⟩, m, _, ⟨hm, rfl⟩, ?_⟩
      rw [he]
      refine Lower.build_eq_ok.mpr ⟨_, setModel_eq_ok.mpr rfl, ?_⟩
      rw [hprogram, ← hscope]
  | hashing id block =>
    simp only [runBody, Step.bind_eq_ok, lowerBody_eq_ok, modelAt_eq_ok]
    constructor
    · rintro ⟨body, c1, ⟨hbody, hscope⟩, m, _, ⟨hm, rfl⟩, h⟩
      cases hb : m.hashing with
      | none =>
        rw [hb] at h
        cases h
      | some b =>
        rw [hb] at h
        obtain ⟨program, hset, rfl⟩ := Lower.build_eq_ok.mp h
        obtain rfl := setModel_eq_ok.mp hset
        exact ⟨body, c1.program, hbody, Option.bind_eq_some_iff.mpr
          ⟨m, hm, Option.map_eq_some_iff.mpr ⟨b, hb, rfl⟩⟩, hscope⟩
    · rintro ⟨body, p1, hbody, hstore, hscope⟩
      obtain ⟨m, hm, hstore⟩ := Option.bind_eq_some_iff.mp hstore
      obtain ⟨b, hb, hprogram⟩ := Option.map_eq_some_iff.mp hstore
      refine ⟨body, ⟨p1, c.scope⟩, ⟨hbody, rfl⟩, m, _, ⟨hm, rfl⟩, ?_⟩
      rw [hb]
      refine Lower.build_eq_ok.mpr ⟨_, setModel_eq_ok.mpr rfl, ?_⟩
      rw [hprogram, ← hscope]

theorem runBody_stored {b : Body} {u : Unit} (h : runBody b c = .ok u c') :
    ∃ block body c1, lowerBody b.callable block c = .ok body c1 ∧
      Stored c1.program c'.program b.callable body := by
  obtain ⟨body, p1, hbody, hstore, _⟩ := runBody_eq_ok.mp h
  exact ⟨b.block, body, ⟨p1, c.scope⟩, lowerBody_eq_ok.mpr ⟨hbody, rfl⟩,
    (Program.store_eq_some hstore).1⟩

/-! ## Opening the members of a model -/

/-- The equality of a model as work, if there is one. -/
def equalityBody (id : ModelId) : Option Syntax.Equality → Lower (List FramedBody)
  | some e => do return [← prepareEquality id e]
  | none => return []

/-- The hash of a model as work, if there is one. -/
def hashingBody (id : ModelId) : Option Syntax.Block → Lower (List FramedBody)
  | some block => do return [← prepareHashing id block]
  | none => return []

/-- The methods of a model as work. -/
def methodBodies (model : Model) (m : Syntax.Model) : List FramedBody :=
  ((model.methods.map (·.function)).zip m.methods).map fun x =>
    (.function x.1, .method x.1 x.2.body)

theorem memberBodies_eq (id : ModelId) (m : Syntax.Model) :
    memberBodies id m = (do
      let model ← modelAt id
      let equality ← equalityBody id m.equality
      let hashing ← hashingBody id m.hashing
      return methodBodies model m ++ equality ++ hashing) := by
  unfold memberBodies
  cases m.equality <;> cases m.hashing <;>
    simp only [equalityBody, hashingBody, methodBodies, bind_assoc, pure_bind]

/-- The program with the local that an equality compares with, if there is an equality. -/
def withOther (p : Program) (id : ModelId) : Option Syntax.Equality → Program
  | some e => p.withLocal ⟨e.other, .model id, .overrideOther⟩
  | none => p

/-- The model with its equality taken up. -/
def openEquality (next : LocalId) (e : Option Syntax.Equality) (model : Model) : Model :=
  { model with equality := (e.map fun _ => ⟨next, []⟩).or model.equality }

/-- The model with its hash taken up. -/
def openHashing (block : Option Syntax.Block) (model : Model) : Model :=
  { model with hashing := (block.map fun _ => []).or model.hashing }

/-- The overrides of a model as work. -/
def overrideBodies (id : ModelId) (next : LocalId) (m : Syntax.Model) : List FramedBody :=
  (m.equality.toList.map fun e => (.equality id ⟨e.other, next⟩, .equality id e.body)) ++
    m.hashing.toList.map fun block => (.hashing id, .hashing id block)

theorem mem_overrideBodies {id : ModelId} {next : LocalId} {m : Syntax.Model} {x : FramedBody}
    (h : x ∈ overrideBodies id next m) :
    (∃ e, m.equality = some e ∧ x = (.equality id ⟨e.other, next⟩, .equality id e.body)) ∨
      ∃ block, m.hashing = some block ∧ x = (.hashing id, .hashing id block) := by
  obtain h | h := List.mem_append.mp h
  · obtain ⟨e, he, rfl⟩ := List.mem_map.mp h
    exact .inl ⟨e, Option.mem_toList.mp he, rfl⟩
  · obtain ⟨block, hb, rfl⟩ := List.mem_map.mp h
    exact .inr ⟨block, Option.mem_toList.mp hb, rfl⟩

section Members

variable {id : ModelId} {model : Model} (hm : c.program.getModel? id = some model)
  {bodies : List FramedBody}

include hm

theorem equalityBody_eq_ok {e : Option Syntax.Equality} :
    equalityBody id e c = .ok bodies c' ↔
      (∀ x, e = some x → checkMemberName x.other = .ok ()) ∧
      bodies = e.toList.map (fun x =>
        (.equality id ⟨x.other, ⟨c.program.locals.size⟩⟩, .equality id x.body)) ∧
      c' = ⟨(withOther c.program id e).withModel id (openEquality ⟨c.program.locals.size⟩ e model),
        c.scope⟩ := by
  cases e with
  | none =>
    have hself : (⟨c.program.withModel id model, c.scope⟩ : Context) = c := by
      rw [withModel_self hm]
    simp only [equalityBody, Step.pure_eq_ok]
    constructor
    · rintro ⟨rfl, rfl⟩
      exact ⟨by rintro _ ⟨⟩, rfl, hself.symm⟩
    · rintro ⟨_, rfl, rfl⟩
      exact ⟨rfl, hself.symm⟩
  | some e =>
    simp only [equalityBody, prepareEquality, Step.bind_eq_ok, Lower.check_eq_ok, newLocal_eq_ok,
      modelAt_eq_ok, Lower.build_eq_ok, setModel_eq_ok, Step.pure_eq_ok]
    constructor
    · rintro ⟨_, _, ⟨_, _, ⟨hvalid, rfl⟩, _, _, ⟨rfl, rfl⟩, m, _, ⟨hm', rfl⟩, _, _,
        ⟨program, rfl, rfl⟩, rfl, rfl⟩, rfl, rfl⟩
      have hold : c.program.getModel? id = some m := hm'
      cases hm.symm.trans hold
      exact ⟨by rintro _ ⟨⟩; exact hvalid, rfl, rfl⟩
    · rintro ⟨hvalid, rfl, rfl⟩
      exact ⟨_, _, ⟨(), c, ⟨hvalid e rfl, rfl⟩, _, _, ⟨rfl, rfl⟩, model, _, ⟨hm, rfl⟩, (), _,
        ⟨_, rfl, rfl⟩, rfl, rfl⟩, rfl, rfl⟩

theorem hashingBody_eq_ok {block : Option Syntax.Block} :
    hashingBody id block c = .ok bodies c' ↔
      bodies = block.toList.map (fun x => (.hashing id, .hashing id x)) ∧
      c' = ⟨c.program.withModel id (openHashing block model), c.scope⟩ := by
  cases block with
  | none =>
    have hself : (⟨c.program.withModel id model, c.scope⟩ : Context) = c := by
      rw [withModel_self hm]
    simp only [hashingBody, Step.pure_eq_ok]
    constructor
    · rintro ⟨rfl, rfl⟩
      exact ⟨rfl, hself.symm⟩
    · rintro ⟨rfl, rfl⟩
      exact ⟨rfl, hself.symm⟩
  | some block =>
    simp only [hashingBody, prepareHashing, Step.bind_eq_ok, modelAt_eq_ok, Lower.build_eq_ok,
      setModel_eq_ok, Step.pure_eq_ok]
    constructor
    · rintro ⟨_, _, ⟨m, _, ⟨hm', rfl⟩, _, _, ⟨program, rfl, rfl⟩, rfl, rfl⟩, rfl, rfl⟩
      cases hm.symm.trans hm'
      exact ⟨rfl, rfl⟩
    · rintro ⟨rfl, rfl⟩
      exact ⟨_, _, ⟨model, c, ⟨hm, rfl⟩, (), _, ⟨_, rfl, rfl⟩, rfl, rfl⟩, rfl, rfl⟩

/-- Opening the members of a model takes up its overrides and leaves one piece of work for each
member. -/
theorem memberBodies_eq_ok {m : Syntax.Model} :
    memberBodies id m c = .ok bodies c' ↔
      (∀ e, m.equality = some e → checkMemberName e.other = .ok ()) ∧
      bodies = methodBodies model m ++ overrideBodies id ⟨c.program.locals.size⟩ m ∧
      c' = ⟨(withOther c.program id m.equality).withModel id (openHashing m.hashing
        (openEquality ⟨c.program.locals.size⟩ m.equality model)), c.scope⟩ := by
  have hm1 : (withOther c.program id m.equality).getModel? id = some model := by
    cases m.equality <;> exact hm
  rw [memberBodies_eq]
  simp only [Step.bind_eq_ok, modelAt_eq_ok, Step.pure_eq_ok, overrideBodies]
  constructor
  · rintro ⟨_, _, ⟨hm', rfl⟩, es, _, hes, hs, _, hhs, rfl, rfl⟩
    cases hm.symm.trans hm'
    obtain ⟨hvalid, rfl, rfl⟩ := (equalityBody_eq_ok hm).mp hes
    obtain ⟨rfl, rfl⟩ := (hashingBody_eq_ok (getModel?_withModel_self hm1)).mp hhs
    refine ⟨hvalid, List.append_assoc _ _ _, ?_⟩
    rw [withModel_withModel]
  · rintro ⟨hvalid, rfl, rfl⟩
    refine ⟨model, c, ⟨hm, rfl⟩, _, _, (equalityBody_eq_ok hm).mpr ⟨hvalid, rfl, rfl⟩, _, _,
      (hashingBody_eq_ok (getModel?_withModel_self hm1)).mpr ⟨rfl, rfl⟩, List.append_assoc _ _ _, ?_⟩
    rw [withModel_withModel]

end Members

theorem memberBodies_model {id : ModelId} {m : Syntax.Model} {bodies : List FramedBody}
    (h : memberBodies id m c = .ok bodies c') : ∃ model, c.program.getModel? id = some model := by
  rw [memberBodies_eq] at h
  simp only [Step.bind_eq_ok, modelAt_eq_ok] at h
  obtain ⟨model, _, ⟨hm, _⟩, _⟩ := h
  exact ⟨model, hm⟩

/-! ## The whole queue -/

/-- Running the work `ds`, the first piece first, turns `p` into `p'`. -/
inductive Drains : Program → List Deferred → Program → Prop where
  | nil {p} : Drains p [] p
  | body {p p' scope b rest c1} (hrun : runBody b ⟨p, scope⟩ = .ok () c1)
      (hrest : Drains c1.program rest p') : Drains p (⟨scope, .body b⟩ :: rest) p'
  | members {p p' scope id m rest bodies c1} (hrun : memberBodies id m ⟨p, scope⟩ = .ok bodies c1)
      (hrest : Drains c1.program (rest ++ deferBodies scope bodies) p') :
      Drains p (⟨scope, .members id m⟩ :: rest) p'

section Drain

variable {limit : Option Nat} {q rest : Queue} {scope : Scope}

theorem drain_of_none (h : q.dequeue? = none) : drain limit q = pure q := by
  rw [drain]
  split <;> rename_i h' <;> cases h.symm.trans h'
  rfl

theorem drain_of_body {b : Body} (h : q.dequeue? = some (⟨scope, .body b⟩, rest)) :
    drain limit q = (do
      Lower.check fun _ => checkLimit limit rest.executed
      Lower.inScope scope (runBody b)
      drain limit rest) := by
  rw [drain]
  split <;> rename_i h' <;> cases h.symm.trans h'
  rfl

theorem drain_of_members {id : ModelId} {m : Syntax.Model}
    (h : q.dequeue? = some (⟨scope, .members id m⟩, rest)) :
    drain limit q = (do
      Lower.check fun _ => checkLimit limit rest.executed
      let bodies ← Lower.inScope scope (memberBodies id m)
      drain limit (rest.enqueueAll (deferBodies scope bodies))) := by
  rw [drain]
  split <;> rename_i h' <;> cases h.symm.trans h'
  rfl

end Drain

variable {limit : Option Nat} {p : Program} {m : Syntax.Module}

theorem Drains.of_drain {q q' : Queue} (h : drain limit q c = .ok q' c') :
    Drains c.program q.items c'.program := by
  induction q using drain.induct generalizing c with
  | case1 q hq =>
    rw [drain_of_none hq] at h
    cases h
    unfold Queue.dequeue? at hq
    split at hq
    · next hitems =>
      rw [hitems]
      exact .nil
    · cases hq
  | case2 q scope body rest hq ih =>
    rw [drain_of_body hq] at h
    simp only [Step.bind_eq_ok, Lower.check_eq_ok, Lower.inScope_eq_ok] at h
    obtain ⟨_, _, ⟨_, rfl⟩, _, _, ⟨c1, hbody, rfl⟩, hrest⟩ := h
    rw [(Queue.dequeue?_eq_some hq).1]
    exact .body hbody (ih (c := ⟨c1.program, c.scope⟩) hrest)
  | case3 q scope id m rest hq ih =>
    rw [drain_of_members hq] at h
    simp only [Step.bind_eq_ok, Lower.check_eq_ok, Lower.inScope_eq_ok] at h
    obtain ⟨_, _, ⟨_, rfl⟩, bodies, _, ⟨c1, hbodies, rfl⟩, hrest⟩ := h
    rw [(Queue.dequeue?_eq_some hq).1]
    exact .members hbodies (ih bodies (c := ⟨c1.program, c.scope⟩) hrest)

/-- Without a limit, work that can be run is run. -/
theorem Drains.drain {p' : Program} {ds : List Deferred} (h : Drains p ds p') (n : Nat)
    (scope : Scope) : ∃ q', Lowering.drain none ⟨ds, n⟩ ⟨p, scope⟩ = .ok q' ⟨p', scope⟩ := by
  induction h generalizing n with
  | nil => exact ⟨_, by rw [drain_of_none rfl]; rfl⟩
  | @body p p' inner b rest c1 hrun hrest ih =>
    obtain ⟨q', hq'⟩ := ih (n + 1)
    refine ⟨q', ?_⟩
    rw [drain_of_body rfl]
    simp only [Step.bind_eq_ok, Lower.check_eq_ok, Lower.inScope_eq_ok]
    exact ⟨(), _, ⟨rfl, rfl⟩, (), _, ⟨c1, hrun, rfl⟩, hq'⟩
  | @members p p' inner id m rest bodies c1 hrun hrest ih =>
    obtain ⟨q', hq'⟩ := ih (n + 1)
    refine ⟨q', ?_⟩
    rw [drain_of_members rfl]
    simp only [Step.bind_eq_ok, Lower.check_eq_ok, Lower.inScope_eq_ok]
    exact ⟨(), _, ⟨rfl, rfl⟩, bodies, _, ⟨c1, hrun, rfl⟩, hq'⟩

/-- What lowering a module did, whatever the limit was. -/
theorem lower_drains (h : lower m limit = .ok p) :
    checkTypeName m.name = .ok () ∧ ∃ ts, Declares m ts ∧
      Drains (declaredProgram m ts) (declaredWork m) p := by
  unfold lower at h
  split at h
  · next c hrun =>
    cases h
    simp only [lowerModule, Step.bind_eq_ok, Lower.check_eq_ok, Step.pure_eq_ok] at hrun
    obtain ⟨_, _, ⟨hname, rfl⟩, ds, c1, hdeclare, q, _, hdrain, _, rfl⟩ := hrun
    obtain ⟨ts, hdeclares, rfl, rfl⟩ := declareAll_eq_ok.mp hdeclare
    exact ⟨hname, ts, hdeclares, Drains.of_drain hdrain⟩
  · cases h

/-- Lowering a module without a limit succeeds exactly if it can be declared and the work that is
left can be run. -/
theorem lower_eq_ok :
    lower m none = .ok p ↔
      checkTypeName m.name = .ok () ∧ ∃ ts, Declares m ts ∧
        Drains (declaredProgram m ts) (declaredWork m) p := by
  refine ⟨lower_drains, ?_⟩
  rintro ⟨hname, ts, hdeclares, hdrains⟩
  obtain ⟨q', hq'⟩ := hdrains.drain 0 []
  have hrun : lowerModule none m ⟨{ name := m.name }, []⟩ = .ok () ⟨p, []⟩ := by
    simp only [lowerModule, Step.bind_eq_ok, Lower.check_eq_ok, Step.pure_eq_ok]
    exact ⟨(), _, ⟨hname, rfl⟩, _, _, declareAll_eq_ok.mpr ⟨ts, hdeclares, rfl, rfl⟩,
      q', _, hq', trivial, rfl⟩
  unfold lower
  rw [hrun]

end Scribe.Lowering
