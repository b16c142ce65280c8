import Mathlib.Data.List.Zip
import Scribe.Proofs.Pending

/-!
# Where the bodies of a program come from

Work never changes a signature, so every body is lowered against the signatures of the whole module,
and nothing that comes later touches it. What each block of the module became can therefore be read
off the finished program (`MadeFrom`): the free functions and the methods in the order of the module,
the equality and the hash of a model where it defines them (`lower_traced`).
-/

namespace Scribe.Lowering

open Scribe.Core

/-! ## One body -/

/-- The body of a callable in a finished program `p` is what a block became in a scope, at a time
when the program was `q`. -/
structure MadeFrom (p : Program) (callable : Callable) (scope : Scope) (block : Syntax.Block) :
    Prop where
  made : ∃ q q' body, LowersBody callable block q scope body q' ∧ p.body? callable = some body ∧
    q'.Grows p ∧ q.stripped = p.stripped ∧
    ∀ frame ∈ scope, frame.Fits q (.entry q callable)

/-- The equality of a model as its definition says. -/
def EqualityMade (p : Program) (id : ModelId) : Option Syntax.Equality → Prop
  | none => p.body? (.equality id) = none
  | some e => checkMemberName e.other = .ok () ∧ ∃ other, p.other? (.equality id) = some other ∧
    p.getLocal? other = some ⟨e.other, .model id, .overrideOther⟩ ∧
    MadeFrom p (.equality id) [.equality id ⟨e.other, other⟩, .model id, .program] e.body

/-- The hash of a model as its definition says. -/
def HashingMade (p : Program) (id : ModelId) : Option Syntax.Block → Prop
  | none => p.body? (.hashing id) = none
  | some block => MadeFrom p (.hashing id) [.hashing id, .model id, .program] block

/-- Work that has been done. -/
def Deferred.Done (p : Program) (d : Deferred) : Prop :=
  match d.work with
  | .body b => MadeFrom p b.callable d.scope b.block
  | .members id m =>
    (∃ model, p.getModel? id = some model ∧
      ∀ x ∈ methodBodies model m, MadeFrom p x.2.callable (x.1 :: d.scope) x.2.block) ∧
    EqualityMade p id m.equality ∧ HashingMade p id m.hashing

/-! ## The whole queue -/

/-- The callables that some work claims. -/
def Claimed (p : Program) (ds : List Deferred) (callable : Callable) : Prop :=
  ∃ d ∈ ds, d.work.Claims p callable

section Steps

variable {p p' : Program} {scope : Scope} {c1 : Context} {u : Unit}

theorem runBody_stripped {b : Body} (h : runBody b ⟨p, scope⟩ = .ok u c1) :
    c1.program.stripped = p.stripped := by
  obtain ⟨body, p1, hlowers, hstore, _⟩ := runBody_eq_ok.mp h
  obtain ⟨c2, hblock, rfl⟩ := hlowers.block
  exact (Program.store_eq_some hstore).2.trans (AddsLocals.stripped hblock.adds.1)

theorem runBody_updates {b : Body} (h : runBody b ⟨p, scope⟩ = .ok u c1)
    (hready : BodyReady p scope b.callable) (hp : p.Signatures) :
    p.Updates (· = b.callable) c1.program := by
  obtain ⟨block, body, c2, hbody, hstored⟩ := runBody_stored h
  have hfits : (⟨p, scope⟩ : Context).Fits (.entry p b.callable) :=
    ⟨hp, hready.frames, Nat.le_refl _⟩
  obtain ⟨hadds, hsignatures, _⟩ := lowerBody_complete hfits hready.inLoop hbody
  exact (hadds.updates (fun _ => hsignatures) _).trans hstored.updates

/-- A body that is run is made from its block, and stays so while nothing else claims it. -/
theorem MadeFrom.of_runBody {b : Body} (h : runBody b ⟨p, scope⟩ = .ok u c1)
    (hready : BodyReady p scope b.callable) {C : Callable → Prop}
    (hupdates : c1.program.Updates C p') (hC : ¬C b.callable)
    (hstripped : p'.stripped = c1.program.stripped) : MadeFrom p' b.callable scope b.block := by
  obtain ⟨body, p1, hlowers, hstore, _⟩ := runBody_eq_ok.mp h
  obtain ⟨hstored, _⟩ := Program.store_eq_some hstore
  refine ⟨p, p1, body, hlowers, (hupdates.body _ hC).trans hstored.stored,
    hstored.updates.grows.trans hupdates.grows, ?_, hready.frames⟩
  rw [hstripped, runBody_stripped h]

variable {bodies : List FramedBody} {id : ModelId} {m : Syntax.Model}

theorem memberBodies_stripped (h : memberBodies id m ⟨p, scope⟩ = .ok bodies c1) :
    c1.program.stripped = p.stripped := by
  obtain ⟨model, hm⟩ := memberBodies_model h
  obtain ⟨_, _, rfl⟩ := (memberBodies_eq_ok hm).mp h
  have hm1 : (withOther p id m.equality).getModel? id = some model := by
    cases m.equality <;> exact hm
  have hopened : (openHashing m.hashing (openEquality ⟨p.locals.size⟩ m.equality model)).stripped =
      model.stripped := rfl
  refine (stripped_withModel hm1 hopened).trans ?_
  cases m.equality <;> rfl

theorem memberBodies_updates (h : memberBodies id m ⟨p, scope⟩ = .ok bodies c1)
    (hready : MembersReady p id m) :
    p.Updates (fun callable => p.owner? callable = some id) c1.program := by
  obtain ⟨model, hm, _⟩ := hready.methods
  obtain ⟨_, _, _, _, h1, _, h2⟩ := memberBodies_opens h hready hm
  exact members_updates h1 h2

/-- The members of a model belong to it. -/
theorem memberBodies_owned (h : memberBodies id m ⟨p, scope⟩ = .ok bodies c1)
    (hready : MembersReady p id m) : ∀ x ∈ bodies, p.owner? x.2.callable = some id := by
  obtain ⟨model, hm, _, _, hmethods, _⟩ := hready.methods
  obtain ⟨_, rfl, _⟩ := (memberBodies_eq_ok (c := ⟨p, scope⟩) hm).mp h
  intro x hx
  obtain hx | hx := List.mem_append.mp hx
  · obtain ⟨y, hy, _, hcallable⟩ := mem_methodBodies hx
    rw [hcallable]
    exact (hmethods y hy).1
  · obtain ⟨_, _, rfl⟩ | ⟨_, _, rfl⟩ := mem_overrideBodies hx
    · rfl
    · rfl

section Members

variable {id : ModelId} {m : Syntax.Model} {bodies : List FramedBody} {rest : List Deferred}
  (h : memberBodies id m ⟨p, scope⟩ = .ok bodies c1) (hready : MembersReady p id m)
  (hscope : scope = [.model id, .program])
  (hupdates : c1.program.Updates (Claimed c1.program (rest ++ deferBodies scope bodies)) p')
  (hrest : ∀ d ∈ rest, ∀ callable, p.owner? callable = some id → ¬d.work.Claims c1.program callable)
  (hbodies : ∀ x ∈ bodies, MadeFrom p' x.2.callable (x.1 :: scope) x.2.block)

include h

theorem getModel?_memberBodies {model : Model} (hm : p.getModel? id = some model) :
    c1.program.getModel? id =
      some (openHashing m.hashing (openEquality ⟨p.locals.size⟩ m.equality model)) := by
  obtain ⟨_, _, rfl⟩ := (memberBodies_eq_ok (c := ⟨p, scope⟩) hm).mp h
  have hm1 : (withOther p id m.equality).getModel? id = some model := by
    cases m.equality <;> exact hm
  exact getModel?_withModel_self hm1

include hupdates hrest in
/-- An override that the model does not define is no work, so nothing comes to stand for it. -/
theorem body?_of_no_override {callable : Callable} (howner : p.owner? callable = some id)
    (hfunction : ∀ function, callable ≠ .function function)
    (hnone : ∀ x ∈ overrideBodies id ⟨p.locals.size⟩ m, callable ≠ x.2.callable) :
    p'.body? callable = c1.program.body? callable := by
  obtain ⟨model, hm⟩ := memberBodies_model h
  obtain ⟨_, rfl, _⟩ := (memberBodies_eq_ok hm).mp h
  refine hupdates.body _ ?_
  rintro ⟨d, hd, hclaims⟩
  obtain hd | hd := List.mem_append.mp hd
  · exact hrest d hd callable howner hclaims
  · obtain ⟨x, hx, rfl⟩ := List.mem_map.mp hd
    obtain hx | hx := List.mem_append.mp hx
    · obtain ⟨y, _, _, hcallable⟩ := mem_methodBodies hx
      exact hfunction _ (Eq.trans hclaims hcallable)
    · exact hnone x hx hclaims

include hready hupdates hbodies

theorem methods_done : ∃ model, p'.getModel? id = some model ∧
    ∀ x ∈ methodBodies model m, MadeFrom p' x.2.callable (x.1 :: scope) x.2.block := by
  obtain ⟨model, hm⟩ := memberBodies_model h
  obtain ⟨model1, hmodel1, hmethods1⟩ := (memberBodies_updates h hready).methods hm
  obtain ⟨_, rfl, _⟩ := (memberBodies_eq_ok hm).mp h
  obtain ⟨model', hmodel', hmethods'⟩ := hupdates.methods hmodel1
  refine ⟨model', hmodel', ?_⟩
  intro x hx
  refine hbodies x (List.mem_append_left _ ?_)
  rw [methodBodies, hmethods', hmethods1] at hx
  exact hx

include hscope hrest

theorem equality_done : EqualityMade p' id m.equality := by
  obtain ⟨model, hm⟩ : ∃ model, p.getModel? id = some model := memberBodies_model h
  have hself := getModel?_memberBodies h hm
  obtain ⟨hvalid, hall, hc⟩ := (memberBodies_eq_ok (c := ⟨p, scope⟩) hm).mp h
  cases he : m.equality with
  | none =>
    refine (body?_of_no_override h hupdates hrest rfl (by rintro _ ⟨⟩) fun x hx => ?_).trans ?_
    · obtain ⟨_, he', _⟩ | ⟨_, _, rfl⟩ := mem_overrideBodies hx
      · cases he.symm.trans he'
      · rintro ⟨⟩
    · have hold := hready.equality
      rw [Program.body?, hm, Option.bind_some] at hold
      rw [Program.body?, hself, Option.bind_some, he]
      exact hold
  | some e =>
    refine ⟨hvalid e he, ⟨p.locals.size⟩, hupdates.grows.other? ?_, hupdates.grows.locals ?_, ?_⟩
    · rw [Program.other?, hself, Option.bind_some, he]
      rfl
    · rw [hc, he]
      exact getLocal?_withLocal_self p _
    · rw [← hscope]
      refine hbodies (.equality id ⟨e.other, ⟨p.locals.size⟩⟩, .equality id e.body) ?_
      rw [hall]
      refine List.mem_append_right _ (List.mem_append_left _ ?_)
      rw [he]
      exact List.mem_cons_self

theorem hashing_done : HashingMade p' id m.hashing := by
  obtain ⟨model, hm⟩ : ∃ model, p.getModel? id = some model := memberBodies_model h
  cases hb : m.hashing with
  | none =>
    refine (body?_of_no_override h hupdates hrest rfl (by rintro _ ⟨⟩) fun x hx => ?_).trans ?_
    · obtain ⟨_, _, rfl⟩ | ⟨_, hb', _⟩ := mem_overrideBodies hx
      · rintro ⟨⟩
      · cases hb.symm.trans hb'
    · have hold := hready.hashing
      rw [Program.body?, hm, Option.bind_some] at hold
      rw [Program.body?, getModel?_memberBodies h hm, Option.bind_some, hb]
      exact hold
  | some block =>
    obtain ⟨_, hall, _⟩ := (memberBodies_eq_ok hm).mp h
    show MadeFrom _ _ _ _
    rw [← hscope]
    refine hbodies (.hashing id, .hashing id block) ?_
    rw [hall]
    refine List.mem_append_right _ (List.mem_append_right _ ?_)
    rw [hb]
    exact List.mem_cons_self

end Members

end Steps

variable {p : Program}

/-- When the queue is empty, all its work is done and no signature has changed. -/
theorem Drains.done {p' : Program} {ds : List Deferred} (h : Drains p ds p') (hp : Pending p ds) :
    (∀ d ∈ ds, d.Done p') ∧ p.Updates (Claimed p ds) p' ∧ p'.stripped = p.stripped := by
  induction h with
  | nil => exact ⟨List.forall_mem_nil _, .refl _, rfl⟩
  | @body p p' scope b rest c1 hrun hrest ih =>
    have hready : BodyReady p scope b.callable := hp.ready _ List.mem_cons_self
    have hfirst := runBody_updates hrun hready hp.signatures
    obtain ⟨hdone, hupdates, hstripped⟩ := ih (hp.runBody hrun)
    have hapart := (List.pairwise_cons.mp hp.apart).1
    have hC : ¬Claimed c1.program rest b.callable := by
      rintro ⟨d, hd, hclaims⟩
      exact hapart d hd _ rfl ((Work.claims_updates hfirst _ _).mp hclaims)
    refine ⟨List.forall_mem_cons.mpr ⟨?_, hdone⟩, ?_, hstripped.trans (runBody_stripped hrun)⟩
    · exact MadeFrom.of_runBody hrun hready hupdates hC hstripped
    · refine (hfirst.mono ?_).trans (hupdates.mono ?_)
      · rintro _ rfl
        exact ⟨_, List.mem_cons_self, rfl⟩
      · rintro callable ⟨d, hd, hclaims⟩
        exact ⟨d, List.mem_cons_of_mem _ hd, (Work.claims_updates hfirst _ _).mp hclaims⟩
  | @members p p' scope id m rest bodies c1 hrun hrest ih =>
    obtain ⟨hscope, hready⟩ : scope = [.model id, .program] ∧ MembersReady p id m :=
      hp.ready _ List.mem_cons_self
    have hfirst := memberBodies_updates hrun hready
    have hpending := hp.memberBodies hrun
    obtain ⟨hdone, hupdates, hstripped⟩ := ih hpending
    have hapart := (List.pairwise_cons.mp hp.apart).1
    have hbodies : ∀ x ∈ bodies, MadeFrom p' x.2.callable (x.1 :: scope) x.2.block := by
      intro x hx
      exact hdone ⟨x.1 :: scope, .body x.2⟩
        (List.mem_append_right _ (List.mem_map.mpr ⟨x, hx, rfl⟩))
    have hrest' : ∀ d ∈ rest, ∀ callable, p.owner? callable = some id →
        ¬d.work.Claims c1.program callable := by
      intro d hd callable howner hclaims
      exact hapart d hd callable howner ((Work.claims_updates hfirst _ _).mp hclaims)
    refine ⟨List.forall_mem_cons.mpr ⟨⟨?_, ?_, ?_⟩, ?_⟩, ?_,
      hstripped.trans (memberBodies_stripped hrun)⟩
    · exact methods_done hrun hready hupdates hbodies
    · exact equality_done hrun hready hscope hupdates hrest' hbodies
    · exact hashing_done hrun hready hscope hupdates hrest' hbodies
    · intro d hd
      exact hdone d (List.mem_append_left _ hd)
    · refine (hfirst.mono ?_).trans (hupdates.mono ?_)
      · intro callable howner
        exact ⟨_, List.mem_cons_self, howner⟩
      · rintro callable ⟨d, hd, hclaims⟩
        obtain hd | hd := List.mem_append.mp hd
        · exact ⟨d, List.mem_cons_of_mem _ hd, (Work.claims_updates hfirst _ _).mp hclaims⟩
        · obtain ⟨x, hx, rfl⟩ := List.mem_map.mp hd
          refine ⟨_, List.mem_cons_self, ?_⟩
          rw [show callable = x.2.callable from hclaims]
          exact memberBodies_owned hrun hready x hx

/-! ## A lowered module -/

/-- A function that is what its definition says, inside the frames `outer`. -/
structure FunctionMade (p : Program) (outer : Scope) (owner : Option ModelId) (f : Syntax.Function)
    (id : FunctionId) : Prop where
  signature : ∃ g, p.getFunction? id = some g ∧ SignatureOf p owner f g
  body : MadeFrom p (.function id) (.function id :: outer) f.body

/-- A model that is what its definition says. -/
structure ModelMade (p : Program) (id : ModelId) (md : Syntax.Model) (model : Model) : Prop where
  name : model.name = md.name
  fields : List.Forall₂ (FieldOf p) md.fields model.fields
  distinct : (md.fields.map (·.name) ++ md.methods.map (·.name)).Nodup
  methods : List.Forall₂ (fun f x => x.name = f.name ∧
    FunctionMade p [.model id, .program] (some id) f x.function) md.methods model.methods
  equality : EqualityMade p id md.equality
  hashing : HashingMade p id md.hashing

/-- Functions and models stand in a program where the module puts them, and are what it says. -/
structure Traced (m : Syntax.Module) (p : Program) (ts : Tables) : Prop where
  declares : Declares m ts
  stripped : p.stripped = declaredProgram m ts
  grows : (declaredProgram m ts).Grows p
  functions : ∀ {i f}, m.functions[i]? = some f → FunctionMade p [.program] none f ⟨i⟩
  models : ∀ {i md}, m.models[i]? = some md →
    ∃ model, p.getModel? ⟨i⟩ = some model ∧ ModelMade p ⟨i⟩ md model

theorem Traced.constants_eq {m : Syntax.Module} {ts : Tables} (h : Traced m p ts) :
    p.constants = ts.constants.toArray :=
  congrArg Program.constants h.stripped

theorem Traced.overrides {m : Syntax.Module} {ts : Tables} (h : Traced m p ts) {id : ModelId}
    {md : Syntax.Model} (hmd : m.models[id.index]? = some md) :
    EqualityMade p id md.equality ∧ HashingMade p id md.hashing := by
  obtain ⟨_, _, hmade⟩ := h.models hmd
  exact ⟨hmade.equality, hmade.hashing⟩

/-- The methods of a model and their bodies are at the same places. -/
theorem forall₂_methodBodies {scope : Scope} {model : Model} {md : Syntax.Model}
    (hlength : model.methods.length = md.methods.length)
    (h : ∀ x ∈ methodBodies model md, MadeFrom p x.2.callable (x.1 :: scope) x.2.block) :
    List.Forall₂ (fun f x => MadeFrom p (.function x.function) (.function x.function :: scope) f.body)
      md.methods model.methods := by
  suffices hids : List.Forall₂ (fun (f : Syntax.Function) i =>
      MadeFrom p (.function i) (.function i :: scope) f.body) md.methods
      (model.methods.map (·.function)) from List.forall₂_map_right_iff.mp hids
  refine List.forall₂_iff_zip.mpr ⟨?_, ?_⟩
  · rw [List.length_map, hlength]
  · intro f i hz
    rw [← List.zip_swap] at hz
    obtain ⟨z, hmem, heq⟩ := List.mem_map.mp hz
    cases heq
    exact h _ (List.mem_map.mpr ⟨z, hmem, rfl⟩)

theorem SignatureOf.of_same {owner : Option ModelId} {f : Syntax.Function} {g g' : Function}
    (h : SignatureOf p owner f g) (hs : g.SameSignature g') : SignatureOf p owner f g' := by
  refine ⟨h.valid, hs.name.trans h.name, ?_, h.distinct, ?_, hs.owner.trans h.owner⟩
  · rw [hs.parameters]
    exact h.parameters
  · rw [hs.returnType]
    exact h.returnType

/-- Every definition of a module is in the lowered program, at its place and as the module says. -/
theorem lower_traced {m : Syntax.Module} {limit : Option Nat} (h : lower m limit = .ok p) :
    checkTypeName m.name = .ok () ∧ ∃ ts, Traced m p ts := by
  obtain ⟨hname, ts, hdeclares, hdrains⟩ := lower_drains h
  obtain ⟨hdone, hupdates, hstripped⟩ := hdrains.done hdeclares.pending
  have hnames := congrArg Program.modelMap hstripped
  change p.modelMap = (bareProgram m.name m.models).modelMap at hnames
  rw [hdeclares.skeleton.stripped] at hstripped
  refine ⟨hname, ts, hdeclares, hstripped, hupdates.grows, ?_, ?_⟩
  · intro i f hf
    obtain ⟨g, hg, hof⟩ := hdeclares.function hf
    obtain ⟨g', hg', hsame⟩ := hupdates.grows.functions hg
    refine ⟨⟨g', hg', (SignatureOf.congr hnames.symm hof.signature).of_same hsame⟩, ?_⟩
    have hmem := mem_functionWork (n := 0) hf
    rw [Nat.zero_add] at hmem
    exact hdone _ (List.mem_append_left _ hmem)
  · intro i md hmd
    obtain ⟨fields, n, hmodel, hfields, hdistinct, hmethods⟩ := hdeclares.model hmd
    have hmem : Deferred.ofModel ⟨i⟩ md ∈ declaredWork m :=
      List.mem_append_right _ (List.mem_map.mpr
        ⟨(⟨i⟩, md), List.mem_of_getElem? (getElem?_numbered hmd), rfl⟩)
    obtain ⟨⟨model, hmodel', hbodies⟩, hequality, hhashing⟩ := hdone _ hmem
    have hlook := getModel?_stripped p ⟨i⟩
    rw [hstripped, hmodel, hmodel'] at hlook
    have hsame : modelOf n md fields = model.stripped := Option.some.inj hlook
    have hmodelName : model.name = md.name := (congrArg Model.name hsame).symm
    have hmodelFields : model.fields = fields := (congrArg Model.fields hsame).symm
    have hmodelMethods : model.methods = methodsFrom n md.methods :=
      (congrArg Model.methods hsame).symm
    refine ⟨model, hmodel', hmodelName, ?_, hdistinct, ?_, hequality, hhashing⟩
    · rw [hmodelFields]
      exact hfields.imp fun _ _ => FieldOf.congr hnames.symm
    · rw [← hmodelMethods] at hmethods
      have hmade := forall₂_methodBodies (hmethods.length_eq.symm) hbodies
      refine List.forall₂_iff_zip.mpr ⟨hmethods.length_eq, ?_⟩
      intro f x hz
      obtain ⟨hx, g, hg, hof⟩ := (List.forall₂_iff_zip.mp hmethods).2 hz
      obtain ⟨g', hg', hsame⟩ := hupdates.grows.functions hg
      exact ⟨hx, ⟨g', hg', (SignatureOf.congr hnames.symm hof.signature).of_same hsame⟩,
        (List.forall₂_iff_zip.mp hmade).2 hz⟩

end Scribe.Lowering
