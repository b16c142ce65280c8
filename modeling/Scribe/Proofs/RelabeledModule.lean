import Scribe.Proofs.RelabeledCode
import Scribe.Proofs.Pending

/-!
# Modules under other names

A module under other names becomes the program under these names, or is refused for the same kind
of reason, and this reason is one of the module (`lower_mirrors`). Members are declared for models
that are there, a body is lowered inside a callable that has a place for it, and the work that waits
in the queue is `Pending`.
-/

namespace Scribe.Lowering

open Scribe.Core

variable {r : String → String}

/-! ## Declarations in the tables -/

section Build

variable {p : Program} {α : Type}

theorem Build.Mirrors.get_bind {f k : Program → Build α}
    (h : Build.Mirrors r p (f p) (k (p.relabel r))) :
    Build.Mirrors r p (get >>= f) (get >>= k) :=
  h

/-- A declaration in a model that is there. -/
theorem Build.Mirrors.model_bind {id : ModelId} {m : Model} (hm : p.getModel? id = some m)
    {f k : Model → Build α} (h : Build.Mirrors r p (f m) (k (m.relabel r))) :
    Build.Mirrors r p (Build.model id >>= f) (Build.model id >>= k) := by
  have hm' : (p.relabel r).getModel? id = some (m.relabel r) := by
    rw [getModel?_relabel, hm]
    rfl
  unfold Build.Mirrors
  rw [Step.bind_of_ok (model_eq_ok.mpr ⟨hm, rfl⟩), Step.bind_of_ok (model_eq_ok.mpr ⟨hm', rfl⟩)]
  exact h

/-- A program is stored that is the relabeled one on the other side. -/
theorem set_mirrors {q q' : Program} {i i' : α} (hq : q' = q.relabel r) (hi : i = i') :
    Build.Mirrors r p
      (do
        set q
        return i)
      (do
        set q'
        return i') := by
  rw [hq]
  exact .ok hi

theorem withModel_relabel (id : ModelId) (m : Model) :
    (p.withModel id m).relabel r = (p.relabel r).withModel id (m.relabel r) := by
  unfold Program.relabel Program.withModel
  rw [Array.map_setIfInBounds]

theorem setModel_mirrors (id : ModelId) (m : Model) :
    Build.Mirrors r p (Build.setModel id m) (Build.setModel id (m.relabel r)) :=
  .of_ok (q := p.withModel id m) rfl (by rw [withModel_relabel]; rfl)

theorem setBody_mirrors (id : FunctionId) (body : Block) :
    Build.Mirrors r p (Build.setBody id body) (Build.setBody id body) := by
  -- a body is set and not relabeled, so the order of the two does not matter
  have hmap : (p.functions.modify id.index ({ · with body })).map (·.relabel r) =
      (p.functions.map (·.relabel r)).modify id.index ({ · with body }) := by
    refine Array.ext_getElem? fun i => ?_
    rw [Array.getElem?_map, Array.getElem?_modify, Array.getElem?_modify, Array.getElem?_map]
    split
    · rw [Option.map_map, Option.map_map]
      rfl
    · rfl
  refine .of_ok rfl ?_
  unfold Program.relabel
  rw [hmap]
  rfl

theorem allocMethod_mirrors (f : Function) :
    Build.Mirrors r p (Build.allocMethod f) (Build.allocMethod (f.relabel r)) := by
  refine .of_ok rfl ?_
  unfold Program.relabel
  rw [Array.map_push, ← Array.size_map (f := (·.relabel r))]
  rfl

variable (hr : Function.Injective r)

include hr

theorem declareModel_build_mirrors (name : String) :
    Build.Mirrors r p (Build.declareModel name) (Build.declareModel (r name)) := by
  refine .get_bind ?_
  rw [model?_relabel hr]
  split
  · exact .error ⟨rfl, id⟩
  · refine set_mirrors ?_ (congrArg ModelId.mk Array.size_map.symm)
    simp only [Program.relabel, Array.map_push, Array.size_map, ← assocInsert_relabel hr]
    rfl

theorem declareConstant_mirrors (k : Constant) :
    Build.Mirrors r p (Build.declareConstant k) (Build.declareConstant (k.relabel r)) := by
  refine .get_bind ?_
  rw [show (p.relabel r).hasValue (k.relabel r).name = p.hasValue k.name from
    hasValue_relabel hr p k.name]
  split
  · exact .error ⟨rfl, id⟩
  · refine set_mirrors ?_ (congrArg ConstantId.mk Array.size_map.symm)
    simp only [Program.relabel, Array.map_push, Array.size_map, ← assocInsert_relabel hr]
    rfl

theorem declareFunction_mirrors (f : Function) :
    Build.Mirrors r p (Build.declareFunction f) (Build.declareFunction (f.relabel r)) := by
  refine .get_bind ?_
  rw [show (p.relabel r).hasValue (f.relabel r).name = p.hasValue f.name from
    hasValue_relabel hr p f.name]
  split
  · exact .error ⟨rfl, id⟩
  · refine set_mirrors ?_ (congrArg FunctionId.mk Array.size_map.symm)
    simp only [Program.relabel, Array.map_push, Array.size_map, ← assocInsert_relabel hr]
    rfl

theorem declareField_mirrors {model : ModelId} {m : Model} (hm : p.getModel? model = some m)
    (f : Field) :
    Build.Mirrors r p (Build.declareField model f) (Build.declareField model (f.relabel r)) := by
  refine .model_bind hm ?_
  rw [show (m.relabel r).hasMember (f.relabel r).name = m.hasMember f.name from
    hasMember_relabel hr m f.name]
  split
  · exact .error ⟨rfl, id⟩
  · have hlength : (m.relabel r).fields.length = m.fields.length := List.length_map _
    have hset : { m.relabel r with
          fields := (m.relabel r).fields ++ [f.relabel r]
          fieldMap := assocInsert (f.relabel r).name m.fields.length (m.relabel r).fieldMap } =
        Model.relabel r { m with
          fields := m.fields ++ [f]
          fieldMap := assocInsert f.name m.fields.length m.fieldMap } := by
      simp only [Model.relabel, List.map_append, ← assocInsert_relabel hr]
      rfl
    rw [hlength]
    exact .of_ok (q := p.withModel model _) rfl (by rw [withModel_relabel, ← hset]; rfl)

theorem declareMethod_mirrors {model : ModelId} {m : Model} (hm : p.getModel? model = some m)
    (name : String) (function : FunctionId) :
    Build.Mirrors r p (Build.declareMethod model name function)
      (Build.declareMethod model (r name) function) := by
  have hset : { m.relabel r with
        methods := (m.relabel r).methods ++ [⟨r name, function⟩]
        methodMap := assocInsert (r name) function (m.relabel r).methodMap } =
      Model.relabel r { m with
        methods := m.methods ++ [⟨name, function⟩]
        methodMap := assocInsert name function m.methodMap } := by
    simp only [Model.relabel, List.map_append, ← assocInsert_relabel hr]
    rfl
  refine .model_bind hm ?_
  rw [hasMember_relabel hr, hset]
  split
  · exact .error ⟨rfl, id⟩
  · exact setModel_mirrors model _

end Build

/-! ## Declarations -/

mutual

theorem isConstantForm_relabel :
    ∀ e : Syntax.Expr, isConstantForm (e.relabel r) = isConstantForm e
  | .bool _ | .int _ | .rune _ | .string _ | .emptyList _ | .emptySet _ | .emptyMap _ _ | .var _
  | .call _ _ | .lookup _ _ | .property _ _ | .contains _ _ | .new _ | .length _ | .self | .null
  | .pop _ => rfl
  | .list items | .set items => areConstantForms_relabel items
  | .map entries => areConstantEntries_relabel entries
  | .unary _ operand => isConstantForm_relabel operand
  | .binary _ left right =>
    congrArg₂ and (isConstantForm_relabel left) (isConstantForm_relabel right)

theorem areConstantForms_relabel : ∀ es : List Syntax.Expr,
    areConstantForms (Syntax.relabelExprs r es) = areConstantForms es
  | [] => rfl
  | e :: rest => congrArg₂ and (isConstantForm_relabel e) (areConstantForms_relabel rest)

theorem areConstantEntries_relabel : ∀ entries : List (Syntax.Expr × Syntax.Expr),
    areConstantEntries (Syntax.relabelEntries r entries) = areConstantEntries entries
  | [] => rfl
  | (key, value) :: rest =>
    congrArg₂ and (congrArg₂ and (isConstantForm_relabel key) (isConstantForm_relabel value))
      (areConstantEntries_relabel rest)

end

section Declarations

variable {c : Context}

theorem defer_mirrors (frame : Frame) (work : Work) :
    Lower.Mirrors r (fun d d' => d' = d.relabel r) c (defer frame work)
      (defer (frame.relabel r) (work.relabel r)) :=
  .get_bind (.pure rfl)

theorem size_withModel (p : Program) (id : ModelId) (m : Model) :
    (p.withModel id m).models.size = p.models.size :=
  Array.size_setIfInBounds

theorem exists_getModel? {p : Program} {id : ModelId} (h : id.index < p.models.size) :
    ∃ m, p.getModel? id = some m :=
  ⟨_, Array.getElem?_eq_getElem h⟩

/-- Members of a model leave the number of models as it is. -/
theorem lowerSkeleton_size {id : ModelId} (hid : id.index < c.program.models.size)
    {md : Syntax.Model} {d : Deferred} {c' : Context} (h : lowerSkeleton id md c = .ok d c') :
    c'.program.models.size = c.program.models.size := by
  obtain ⟨m, hm⟩ := exists_getModel? hid
  simp only [lowerSkeleton, Step.bind_eq_ok, defer, Step.get_eq_ok, Step.pure_eq_ok] at h
  obtain ⟨_, _, hfields, _, _, hmethods, _, _, ⟨rfl, rfl⟩, rfl, rfl⟩ := h
  obtain ⟨fields, _, rfl⟩ := (forM_lowerField_eq_ok hm).mp hfields
  obtain ⟨gs, _, rfl⟩ := (forM_lowerMethod_eq_ok (getModel?_withModel_self hm)).mp hmethods
  exact (size_withModel _ _ _).trans (size_withModel _ _ _)

variable (hr : Relabeling r)

include hr

theorem declareModel_mirrors (m : Syntax.Model) :
    Lower.Mirrors r Eq c (declareModel m) (declareModel (m.relabel r)) :=
  .check_bind (hr.checkTypeName m.name) fun _ _ =>
    .build (declareModel_build_mirrors hr.injective m.name)

theorem lowerConstant_mirrors (hscope : c.scope = [.program]) (hp : c.program.Signatures)
    (k : Syntax.Constant) :
    Lower.Mirrors r Eq c (lowerConstant k) (lowerConstant (k.relabel r)) := by
  -- in the scope of the module, any callable does as the one of a site
  have hc : c.Stands ⟨some (.function ⟨0⟩), c.program.constants.size, []⟩ := by
    refine ⟨⟨hp, ?_, Nat.le_refl _⟩, rfl, ?_⟩
    · rw [hscope]
      exact List.forall_mem_singleton.mpr trivial
    · rw [hscope]
      intro id hid
      cases List.mem_singleton.mp hid
  refine .check_bind (hr.checkConstantName k.name) fun _ _ => ?_
  rw [show isConstantForm (k.relabel r).value = isConstantForm k.value from
    isConstantForm_relabel k.value]
  split
  · refine .throw_bind ?_
    exact ⟨rfl, id⟩
  · exact .operand_bind hc (lowerExpr_mirrors hr hc k.value) fun value type _ =>
      .bind_eq (.build (declareConstant_mirrors hr.injective ⟨k.name, value, type⟩)) fun _ _ _ =>
        .pure rfl

theorem lowerParameters_mirrors (earlier : List Parameter) (qs : List Syntax.Parameter) :
    Lower.Mirrors r (fun ps ps' => ps' = ps.map (·.relabel r)) c (lowerParameters earlier qs)
      (lowerParameters (earlier.map (·.relabel r)) (qs.map (·.relabel r))) := by
  induction qs generalizing earlier with
  | nil => exact .pure rfl
  | cons q rest ih =>
    refine .check_bind (hr.checkMemberName q.name) fun _ _ => ?_
    have hany : (earlier.map (·.relabel r)).any (·.name == (q.relabel r).name) =
        earlier.any (·.name == q.name) := by
      rw [List.any_map]
      exact congrArg (earlier.any ·) (funext fun q' => relabel_beq hr.injective q'.name q.name)
    rw [hany]
    split
    · refine .throw_bind ?_
      exact ⟨rfl, id⟩
    · refine .check_bind (lowerValueType_mirrors hr q.type) fun type _ => ?_
      -- the parameter is one of the earlier ones for the rest, on both sides
      have hnext := ih (earlier ++ [{ name := q.name, type }])
      rw [List.map_append] at hnext
      exact hnext

theorem lowerSignature_mirrors (f : Syntax.Function) :
    Lower.Mirrors r (fun x y => y = (x.1.map (·.relabel r), x.2)) c (lowerSignature f)
      (lowerSignature (f.relabel r)) := by
  refine .bind (lowerParameters_mirrors hr [] f.parameters) fun qs qs' _ _ hqs => ?_
  refine .check_bind (lowerType_mirrors hr f.returnType) fun t _ => .pure ?_
  rw [hqs]

theorem lowerFunction_mirrors (f : Syntax.Function) :
    Lower.Mirrors r (fun d d' => d' = d.relabel r) c (lowerFunction f)
      (lowerFunction (f.relabel r)) := by
  refine .check_bind (hr.checkMemberName f.name) fun _ _ => ?_
  refine .bind (lowerSignature_mirrors hr f) fun x y _ _ hxy => ?_
  rw [hxy]
  exact .bind_eq (.build (declareFunction_mirrors hr.injective ⟨f.name, x.1, x.2, none, []⟩))
    fun id _ _ => defer_mirrors (.function id) (.body (.function id f.body))

variable {model : ModelId} {m : Model}

theorem lowerField_mirrors (hm : c.program.getModel? model = some m) (f : Syntax.Field) :
    Lower.Mirrors r Eq c (lowerField model f) (lowerField model (f.relabel r)) :=
  .check_bind (hr.checkMemberName f.name) fun _ _ =>
    .check_bind (lowerValueType_mirrors hr f.type) fun type _ =>
      .bind_pure (.build (declareField_mirrors hr.injective hm ⟨f.name, type⟩))

theorem lowerMethod_mirrors (hm : c.program.getModel? model = some m) (f : Syntax.Function) :
    Lower.Mirrors r Eq c (lowerMethod model f) (lowerMethod model (f.relabel r)) := by
  refine .check_bind (hr.checkMemberName f.name) fun _ _ => ?_
  refine .bind (lowerSignature_mirrors hr f) fun x y c' h hxy => ?_
  obtain ⟨_, _, _, rfl⟩ := lowerSignature_eq_ok.mp h
  rw [hxy]
  refine .bind_eq (.build (allocMethod_mirrors ⟨f.name, x.1, x.2, some model, []⟩))
    fun function c' h => ?_
  obtain ⟨program, halloc, rfl⟩ := Lower.build_eq_ok.mp h
  cases halloc
  -- the new function leaves the models as they are
  refine .build (declareMethod_mirrors (m := m) hr.injective ?_ f.name _)
  exact hm

theorem lowerSkeleton_mirrors (hmodel : model.index < c.program.models.size) (md : Syntax.Model) :
    Lower.Mirrors r (fun d d' => d' = d.relabel r) c (lowerSkeleton model md)
      (lowerSkeleton model (md.relabel r)) := by
  refine .bind_eq (.forM (I := fun c => model.index < c.program.models.size) ?_ ?_ hmodel)
    fun _ c1 hfields => ?_
  · intro f _ c hmodel
    obtain ⟨m, hm⟩ := exists_getModel? hmodel
    exact lowerField_mirrors hr hm f
  · intro f _ c c' u hmodel h
    obtain ⟨m, hm⟩ := exists_getModel? hmodel
    obtain ⟨_, _, rfl⟩ := (lowerField_eq_ok hm).mp h
    exact Nat.lt_of_lt_of_eq hmodel (size_withModel _ _ _).symm
  · obtain ⟨m, hm⟩ := exists_getModel? hmodel
    obtain ⟨_, _, rfl⟩ := (forM_lowerField_eq_ok hm).mp hfields
    refine .bind_eq (.forM (I := fun c => model.index < c.program.models.size) ?_ ?_ ?_)
      fun _ _ _ => defer_mirrors (.model model) (.members model md)
    · intro f _ c hmodel
      obtain ⟨m, hm⟩ := exists_getModel? hmodel
      exact lowerMethod_mirrors hr hm f
    · intro f _ c c' u hmodel h
      obtain ⟨m, hm⟩ := exists_getModel? hmodel
      obtain ⟨_, _, rfl⟩ := (lowerMethod_eq_ok hm).mp h
      exact Nat.lt_of_lt_of_eq hmodel (size_withModel _ _ _).symm
    · exact Nat.lt_of_lt_of_eq hmodel (size_withModel _ _ _).symm

theorem declareAll_mirrors (m : Syntax.Module) (name : String) :
    Lower.Mirrors r (fun ds ds' => ds' = ds.map (·.relabel r)) ⟨{ name }, []⟩ (declareAll m)
      (declareAll (m.relabel r)) := by
  have hbare :
      ({ name } : Program).withModels (m.models.map (·.name)) = bareProgram name m.models := by
    simp [Program.withModels, bareProgram]
  -- ids count what was declared before, so they are the same on both sides
  have hids {c : Context} : Lower.Mirrors r Eq c (m.models.mapM declareModel)
      ((m.models.map (·.relabel r)).mapM declareModel) := by
    refine .mono (R := fun ids ids' => ids' = ids.map id) (.mapM (I := fun _ => True)
      (fun x _ _ _ => (declareModel_mirrors hr x).mono fun _ _ h => h.symm)
      (fun _ _ _ _ _ _ _ => trivial) trivial) ?_
    intro ids ids' h
    rw [h, List.map_id]
  refine .withFrame (.bind_eq hids fun ids c1 hids => ?_)
  obtain ⟨⟨_, hnodup, _⟩, rfl, rfl⟩ := mapM_declareModel_eq_ok.mp hids
  rw [hbare] at hids ⊢
  refine .bind_eq ?_ fun _ c2 hconstants => ?_
  · refine .forM (I := fun c => c.scope = [.program] ∧ c.program.Signatures ∧
      c.program.ConstantsSound) (fun k _ c hc => lowerConstant_mirrors hr hc.1 hc.2.1 k) ?_
      ⟨rfl, bareProgram_sound name hnodup⟩
    rintro k _ c c' u ⟨hscope, hp, hsound⟩ h
    obtain ⟨k', ⟨_, hname, hform, hvalue, htype, hfresh⟩, rfl⟩ := (lowerConstant_eq_ok hscope).mp h
    exact ⟨hscope, hvalue.withConstants_sound hform htype (hname ▸ hfresh) hp hsound⟩
  obtain ⟨ks, _, rfl⟩ := (forM_lowerConstant_eq_ok (c := ⟨_, _⟩) rfl).mp hconstants
  refine .bind (.mapM (I := fun _ => True) (fun f _ _ _ => lowerFunction_mirrors hr f)
    (fun _ _ _ _ _ _ _ => trivial) trivial) fun fs fs' c3 hfunctions hfs => ?_
  obtain ⟨gs, _, rfl, rfl⟩ := (mapM_lowerFunction_eq_ok (c := ⟨_, _⟩) rfl).mp hfunctions
  -- there are as many models as were declared first
  have hin : ∀ x ∈ ((List.range' 0 m.models.length).map ModelId.mk).zip m.models,
      x.1.index < m.models.length := by
    intro x hx
    obtain ⟨i, hi, heq⟩ := List.mem_map.mp (List.of_mem_zip hx).1
    rw [← heq]
    simpa using hi
  have hzip (ids : List ModelId) : ids.zip (m.models.map (·.relabel r)) =
      (ids.zip m.models).map (Prod.map id (·.relabel r)) := List.zip_map_right
  rw [show (m.relabel r).models = m.models.map (·.relabel r) from rfl, hzip]
  refine .bind (.mapM (I := fun c => c.program.models.size = m.models.length) ?_ ?_ ?_)
    fun ms ms' _ _ hms => .pure (by rw [hfs, hms, List.map_append])
  · intro x hx c hc
    exact lowerSkeleton_mirrors hr (Nat.lt_of_lt_of_eq (hin x hx) hc.symm) x.2
  · intro x hx c c' d hc h
    exact (lowerSkeleton_size (Nat.lt_of_lt_of_eq (hin x hx) hc.symm) h).trans hc
  · simp [Program.withFree, Program.withFunctions, Program.withConstants, bareProgram]

end Declarations

/-! ## Bodies -/

theorem methodBodies_relabel (model : Model) (m : Syntax.Model) :
    methodBodies (model.relabel r) (m.relabel r) =
      (methodBodies model m).map (FramedBody.relabel r) := by
  have hids : (model.relabel r).methods.map (·.function) = model.methods.map (·.function) :=
    List.map_map
  unfold methodBodies
  rw [hids, show (m.relabel r).methods = m.methods.map (·.relabel r) from rfl, List.zip_map_right,
    List.map_map, List.map_map]
  rfl

theorem dequeue?_relabel (q : Queue) : (q.relabel r).dequeue? =
    q.dequeue?.map fun x => (x.1.relabel r, x.2.relabel r) := by
  obtain ⟨items, executed⟩ := q
  cases items <;> rfl

theorem deferBodies_relabel (scope : Scope) (bodies : List FramedBody) :
    deferBodies (scope.relabel r) (bodies.map (FramedBody.relabel r)) =
      (deferBodies scope bodies).map (·.relabel r) := by
  unfold deferBodies
  rw [List.map_map, List.map_map]
  rfl

theorem enqueueAll_relabel (q : Queue) (ds : List Deferred) :
    (q.relabel r).enqueueAll (ds.map (·.relabel r)) = (q.enqueueAll ds).relabel r := by
  unfold Queue.enqueueAll Queue.relabel
  rw [List.map_append]

section Bodies

variable {c : Context} {γ : Type} {S : γ → γ → Prop}

/-- A model that is there in front of the rest. -/
theorem Lower.Mirrors.modelAt_bind {id : ModelId} {m : Model}
    (hm : c.program.getModel? id = some m) {f k : Model → Lower γ}
    (h : Lower.Mirrors r S c (f m) (k (m.relabel r))) :
    Lower.Mirrors r S c (modelAt id >>= f) (modelAt id >>= k) := by
  refine .known_bind (Checked.ofOption_eq_ok.mpr hm) (b := m.relabel r) ?_ h
  rw [getModel?_relabel, hm]
  rfl

/-- A callable is called differently, but a callable with a place for its body has a name on both
sides. -/
theorem callableName?_of_body? {p : Program} {callable : Callable} {body : Block}
    (h : p.body? callable = some body) : ∃ name name', p.callableName? callable = some name ∧
      (p.relabel r).callableName? callable = some name' := by
  unfold Program.callableName?
  cases callable with
  | function id =>
    obtain ⟨f, hf⟩ := getFunction?_of_body? h
    dsimp only
    rw [getFunction?_relabel, hf]
    exact ⟨_, _, rfl, rfl⟩
  | equality id =>
    obtain ⟨e, he, _⟩ := Option.map_eq_some_iff.mp h
    obtain ⟨m, hm, _⟩ := Option.bind_eq_some_iff.mp he
    dsimp only
    rw [getModel?_relabel, hm]
    exact ⟨_, _, rfl, rfl⟩
  | hashing id =>
    obtain ⟨m, hm, _⟩ := Option.bind_eq_some_iff.mp h
    dsimp only
    rw [getModel?_relabel, hm]
    exact ⟨_, _, rfl, rfl⟩

variable (hr : Relabeling r)

include hr

theorem lowerBody_mirrors {callable : Callable} {body : Block}
    (hc : c.Fits (.entry c.program callable)) (hbody : c.program.body? callable = some body)
    (henclosed : c.scope.enclosingCallable?.isSome) (block : Syntax.Block) :
    Lower.Mirrors r Eq c (lowerBody callable block)
      (lowerBody callable (Syntax.relabelBlock r block)) := by
  have hinside : ({ c with scope := .block [] :: c.scope } : Context).Inside
      (.entry c.program callable) := by
    refine ⟨hc.withFrame Frame.fits_block_nil, ?_, henclosed⟩
    rintro _ ⟨⟩
    exact ⟨body, hbody⟩
  refine .bind_eq (.withFrame (lowerStmts_mirrors hr block hinside)) fun body' c1 h => ?_
  have hlowers := lowerBlock_sound rfl hc h
  have hbody1 := (hlowers.lowered.adds.body? callable).trans hbody
  obtain ⟨name, name', hname, hname'⟩ := callableName?_of_body? (r := r) hbody1
  obtain ⟨t, ht⟩ := callableReturnType?_of_body? hbody1
  refine .known_bind (Checked.ofOption_eq_ok.mpr hname) (Checked.ofOption_eq_ok.mpr hname') ?_
  refine .known_bind (Checked.ofOption_eq_ok.mpr ht) (b := t) ?_ ?_
  · rw [callableReturnType?_relabel, ht]
    rfl
  · exact .check_pure (checkTerminal_mirrors name name' t body')

theorem runBody_mirrors {b : Body} (hp : c.program.Signatures)
    (h : BodyReady c.program c.scope b.callable) (henclosed : c.scope.enclosingCallable?.isSome) :
    Lower.Mirrors r Eq c (runBody b) (runBody (b.relabel r)) := by
  have hc : c.Fits (.entry c.program b.callable) := ⟨hp, h.frames, Nat.le_refl _⟩
  have hbody (block : Syntax.Block) : Lower.Mirrors r Eq c (lowerBody b.callable block)
      (lowerBody b.callable (Syntax.relabelBlock r block)) :=
    lowerBody_mirrors hr hc h.empty henclosed block
  -- lowering a body leaves its place as it was
  have hplace {block : Syntax.Block} {body : Block} {c' : Context}
      (hrun : lowerBody b.callable block c = .ok body c') :
      c'.program.body? b.callable = some [] :=
    ((lowerBody_complete hc h.inLoop hrun).1.body? _).trans h.empty
  cases b with
  | function id block | method id block =>
    exact .bind_eq (hbody block) fun body _ _ => .build (setBody_mirrors id body)
  | equality id block =>
    refine .bind_eq (hbody block) fun body c1 hrun => ?_
    obtain ⟨e, he, _⟩ := Option.map_eq_some_iff.mp (hplace hrun)
    obtain ⟨m, hm, hequality⟩ := Option.bind_eq_some_iff.mp he
    refine .modelAt_bind hm ?_
    rw [show (m.relabel r).equality = m.equality from rfl, hequality]
    exact .build (setModel_mirrors id { m with equality := some { e with body } })
  | hashing id block =>
    refine .bind_eq (hbody block) fun body c1 hrun => ?_
    obtain ⟨m, hm, hhashing⟩ := Option.bind_eq_some_iff.mp (hplace hrun)
    refine .modelAt_bind hm ?_
    rw [show (m.relabel r).hashing = m.hashing from rfl, hhashing]
    exact .build (setModel_mirrors id { m with hashing := some body })

theorem equalityBody_mirrors {id : ModelId} {m : Model} (hm : c.program.getModel? id = some m)
    (e : Option Syntax.Equality) :
    Lower.Mirrors r (fun xs ys => ys = xs.map (FramedBody.relabel r)) c (equalityBody id e)
      (equalityBody id (e.map (·.relabel r))) := by
  cases e with
  | none => exact .pure rfl
  | some e =>
    refine .bind (R := fun x y => y = FramedBody.relabel r x) ?_ fun x y _ _ hxy =>
      .pure (by rw [hxy]; rfl)
    refine .check_bind (hr.checkMemberName e.other) fun _ _ => ?_
    refine .bind_eq (newLocal_mirrors e.other (.model id) .overrideOther) fun other c' h => ?_
    obtain ⟨rfl, rfl⟩ := newLocal_eq_ok.mp h
    refine .modelAt_bind (m := m) ?_ ?_
    · exact hm
    · exact .bind_eq (.build (setModel_mirrors id { m with equality := some ⟨_, []⟩ }))
        fun _ _ _ => .pure rfl

omit hr in
theorem hashingBody_mirrors {id : ModelId} {m : Model} (hm : c.program.getModel? id = some m)
    (block : Option Syntax.Block) :
    Lower.Mirrors r (fun xs ys => ys = xs.map (FramedBody.relabel r)) c (hashingBody id block)
      (hashingBody id (block.map (Syntax.relabelBlock r))) := by
  cases block with
  | none => exact .pure rfl
  | some block =>
    refine .bind (R := fun x y => y = FramedBody.relabel r x) ?_ fun x y _ _ hxy =>
      .pure (by rw [hxy]; rfl)
    exact .modelAt_bind hm (.bind_eq (.build (setModel_mirrors id { m with hashing := some [] }))
      fun _ _ _ => .pure rfl)

theorem memberBodies_mirrors {id : ModelId} {m : Syntax.Model} (h : MembersReady c.program id m) :
    Lower.Mirrors r (fun xs ys => ys = xs.map (FramedBody.relabel r)) c (memberBodies id m)
      (memberBodies id (m.relabel r)) := by
  obtain ⟨model, hmodel, _⟩ := h.methods
  rw [memberBodies_eq, memberBodies_eq]
  refine .modelAt_bind hmodel ?_
  refine .bind (equalityBody_mirrors hr hmodel m.equality) fun es es' c1 hrun hes => ?_
  obtain ⟨hopens, _⟩ := equalityBody_opens hmodel hrun h.equality
  obtain ⟨model', hmodel', _⟩ := hopens.updates.methods hmodel
  refine .bind (hashingBody_mirrors hmodel' m.hashing) fun hs hs' _ _ hhs => .pure ?_
  rw [methodBodies_relabel, hes, hhs, List.map_append, List.map_append]

end Bodies

/-! ## The queue -/

/-- A body waits in a scope of its callable. -/
def Deferred.Enclosed (d : Deferred) : Prop :=
  ∀ b, d.work = .body b → d.scope.enclosingCallable?.isSome

/-- Each member of a model brings the frame of its callable. -/
theorem memberBodies_enclosed {c c' : Context} {id : ModelId} {m : Syntax.Model}
    {bodies : List FramedBody} (h : memberBodies id m c = .ok bodies c') (scope : Scope) :
    ∀ d ∈ deferBodies scope bodies, d.Enclosed := by
  suffices hframes : ∀ x ∈ bodies, (Scope.enclosingCallable? (x.1 :: scope)).isSome by
    intro d hd b _
    obtain ⟨x, hx, rfl⟩ := List.mem_map.mp hd
    exact hframes x hx
  obtain ⟨model, hm⟩ := memberBodies_model h
  obtain ⟨_, rfl, _⟩ := (memberBodies_eq_ok hm).mp h
  intro x hx
  obtain hx | hx := List.mem_append.mp hx
  · obtain ⟨y, _, hframe, _⟩ := mem_methodBodies hx
    rw [hframe]
    rfl
  · obtain ⟨_, _, rfl⟩ | ⟨_, _, rfl⟩ := mem_overrideBodies hx
    · rfl
    · rfl

theorem Outline.enclosed {p : Program} {ds : List Deferred} (h : Outline p ds) :
    ∀ d ∈ ds, d.Enclosed := by
  intro d hd b hb
  obtain ⟨id, block, f, rfl, _⟩ | ⟨id, m, model, rfl, _⟩ := h.items d hd
  · rfl
  · cases hb

theorem checkLimit_mirrors (limit : Option Nat) (executed : Nat) :
    Checked.Mirrors Eq (checkLimit limit executed) (checkLimit limit executed) := by
  unfold checkLimit
  split
  · split
    · exact .error ⟨rfl, id⟩
    · exact .ok rfl
  · exact .ok rfl

section Queue

variable (hr : Relabeling r)

include hr

/-- The queue of a relabeled module holds the relabeled work. The induction is that of the queue. -/
theorem drain_mirrors {limit : Option Nat} {q : Queue} {c : Context}
    (h : Pending c.program q.items) (henclosed : ∀ d ∈ q.items, d.Enclosed) :
    Lower.Mirrors r (fun q q' => q' = q.relabel r) c (drain limit q)
      (drain limit (q.relabel r)) := by
  induction q using Lowering.drain.induct generalizing c with
  | case1 q hq =>
    have hq' : (q.relabel r).dequeue? = none := by rw [dequeue?_relabel, hq]; rfl
    rw [drain_of_none hq, drain_of_none hq']
    exact .pure rfl
  | case2 q scope body rest hq ih =>
    have hq' : (q.relabel r).dequeue? =
        some (⟨scope.relabel r, .body (body.relabel r)⟩, rest.relabel r) := by
      rw [dequeue?_relabel, hq]
      rfl
    rw [drain_of_body hq, drain_of_body hq']
    rw [(Queue.dequeue?_eq_some hq).1] at h henclosed
    obtain ⟨hfirst, hrest⟩ := List.forall_mem_cons.mp henclosed
    have hready : BodyReady c.program scope body.callable := h.ready _ List.mem_cons_self
    refine .check_bind (checkLimit_mirrors limit rest.executed) fun _ _ => ?_
    have hbody := runBody_mirrors hr (c := ⟨c.program, scope⟩) h.signatures hready (hfirst body rfl)
    refine .bind_eq (.inScope hbody) fun _ c' h' => ?_
    obtain ⟨c1, hrun, rfl⟩ := Lower.inScope_eq_ok.mp h'
    have hnext : Pending c1.program rest.items := h.runBody hrun
    exact ih (c := ⟨c1.program, c.scope⟩) hnext hrest
  | case3 q scope id m rest hq ih =>
    have hq' : (q.relabel r).dequeue? =
        some (⟨scope.relabel r, .members id (m.relabel r)⟩, rest.relabel r) := by
      rw [dequeue?_relabel, hq]
      rfl
    rw [drain_of_members hq, drain_of_members hq']
    rw [(Queue.dequeue?_eq_some hq).1] at h henclosed
    obtain ⟨_, hrest⟩ := List.forall_mem_cons.mp henclosed
    obtain ⟨_, hmembers⟩ : scope = [.model id, .program] ∧ MembersReady c.program id m :=
      h.ready _ List.mem_cons_self
    refine .check_bind (checkLimit_mirrors limit rest.executed) fun _ _ => ?_
    have hbodies := memberBodies_mirrors hr (c := ⟨c.program, scope⟩) hmembers
    refine .bind (.inScope hbodies) fun bodies bodies' c' h' hys => ?_
    obtain ⟨c1, hrun, rfl⟩ := Lower.inScope_eq_ok.mp h'
    have hnext : Pending c1.program (rest.enqueueAll (deferBodies scope bodies)).items :=
      h.memberBodies hrun
    rw [hys, deferBodies_relabel, enqueueAll_relabel]
    -- the bodies of the members wait behind the rest
    refine ih bodies (c := ⟨c1.program, c.scope⟩) hnext ?_
    exact List.forall_mem_append.mpr ⟨hrest, memberBodies_enclosed hrun scope⟩

theorem lowerModule_mirrors (limit : Option Nat) (m : Syntax.Module) :
    Lower.Mirrors r Eq ⟨{ name := m.name }, []⟩ (lowerModule limit m)
      (lowerModule limit (m.relabel r)) := by
  refine .check_bind (hr.checkTypeName m.name) fun _ _ => ?_
  refine .bind (declareAll_mirrors hr m m.name) fun ds ds' c hdeclare hds => ?_
  obtain ⟨ts, hdeclares, rfl, rfl⟩ := declareAll_eq_ok.mp hdeclare
  rw [hds]
  exact .bind (drain_mirrors hr hdeclares.pending hdeclares.outline.enclosed)
    fun _ _ _ _ _ => .pure rfl

/-- Both modules become programs that correspond, or both are refused for the same kind of
reason. -/
theorem lower_mirrors (m : Syntax.Module) (limit : Option Nat) :
    Checked.Mirrors (fun p p' => p' = p.relabel r) (lower m limit) (lower (m.relabel r) limit) := by
  have hempty : Context.relabel r { program := { name := m.name }, scope := [] } =
      { program := { name := (m.relabel r).name }, scope := [] } := by
    simp only [Context.relabel, Program.relabel, Scope.relabel, Array.map_empty, List.map_nil]
    rfl
  have hrun := lowerModule_mirrors hr limit m
  unfold Lower.Mirrors at hrun
  rw [hempty] at hrun
  unfold lower
  obtain ⟨u, u', c, hx, hy, _⟩ | ⟨e, e', c, c', hx, hy, he⟩ := hrun.cases
  · rw [hx, hy]
    exact .ok rfl
  · rw [hx, hy]
    exact .error he

end Queue

end Scribe.Lowering
