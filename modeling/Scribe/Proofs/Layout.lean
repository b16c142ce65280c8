import Scribe.Proofs.Faithful
import Scribe.Proofs.OrderIndependence

/-!
# Where definitions and locals stand

Lowering works level by level, so the tables of a lowered program are in a known order. Free
functions come first and the methods of one model after the other follow. Locals come in the order
in which bodies are run: those of the free functions, then what each equality compares with, then
those of the members of one model after the other (`lower_laidOut`).

`Program.slots` are the stretches of the table of locals in that order. What waits in the queue says
which stretches are still to come: a body takes its own stretch, and the members of a model take one
local at once and leave the stretches of their bodies for later (`Drains.takes`).
-/

namespace Scribe.Core

/-! ## Stretches of the table of locals -/

/-- A stretch of the table of locals: what a body binds, or what an equality compares with. -/
inductive Slot where
  | body (callable : Callable)
  | other (model : ModelId)
  deriving DecidableEq, Repr

namespace Program

/-- The ids of the models of a program, in order. -/
def modelIds (p : Program) : List ModelId :=
  (List.range p.models.size).map ModelId.mk

/-- The functions that are the methods of a model, in order. -/
def methodsOf (p : Program) (id : ModelId) : List FunctionId :=
  (p.getModel? id).elim [] fun m => m.methods.map (·.function)

/-- The bodies of the members of a model: its methods, its equality, its hash. -/
def memberSlots (p : Program) (id : ModelId) : List Slot :=
  (p.methodsOf id).map (fun function => .body (.function function)) ++
    [.body (.equality id), .body (.hashing id)]

/-- The stretches of the table of locals, in order. -/
def slots (p : Program) : List Slot :=
  p.freeFunctions.map (fun function => .body (.function function)) ++
    (p.modelIds.map .other ++ p.modelIds.flatMap p.memberSlots)

/-- The locals of a stretch. -/
def slotBinders (p : Program) : Slot → List LocalId
  | .body callable => (p.body? callable).elim [] blockBinders
  | .other id => (p.other? (.equality id)).toList

variable {p : Program} {id : ModelId}

theorem slotBinders_body {callable : Callable} {body : Block} (h : p.body? callable = some body) :
    p.slotBinders (.body callable) = blockBinders body := by
  rw [slotBinders, h]
  rfl

theorem slotBinders_of_none {callable : Callable} (h : p.body? callable = none) :
    p.slotBinders (.body callable) = [] := by
  rw [slotBinders, h]
  rfl

theorem methodsOf_eq {model : Model} (h : p.getModel? id = some model) :
    p.methodsOf id = model.methods.map (·.function) := by
  rw [methodsOf, h]
  rfl

theorem mem_modelIds : id ∈ p.modelIds ↔ ∃ m, p.getModel? id = some m := by
  rw [modelIds, List.mem_map]
  refine Iff.trans ?_ (lt_size_iff p.models id.index)
  constructor
  · rintro ⟨i, hi, rfl⟩
    exact List.mem_range.mp hi
  · intro hlt
    exact ⟨id.index, List.mem_range.mpr hlt, rfl⟩

theorem mem_methodsOf {function : FunctionId} (h : function ∈ p.methodsOf id) :
    ∃ model x, p.getModel? id = some model ∧ x ∈ model.methods ∧ x.function = function := by
  unfold methodsOf at h
  cases hm : p.getModel? id with
  | none =>
    rw [hm] at h
    cases h
  | some model =>
    rw [hm] at h
    obtain ⟨x, hx, hfunction⟩ := List.mem_map.mp h
    exact ⟨model, x, rfl, hx, hfunction⟩

theorem mem_freeFunctions (hp : p.Indexed) {id : FunctionId} :
    id ∈ p.freeFunctions ↔ ∃ f, p.getFunction? id = some f ∧ f.owner = none := by
  unfold freeFunctions
  rw [List.mem_map]
  constructor
  · rintro ⟨⟨name, _⟩, hx, rfl⟩
    obtain ⟨f, hf, howner, _⟩ := (hp.functions.mem _ _).mp hx
    exact ⟨f, hf, howner⟩
  · rintro ⟨f, hf, howner⟩
    exact ⟨(f.name, id), (hp.functions.mem _ _).mpr ⟨f, hf, howner, rfl⟩, rfl⟩

end Program

/-- `p'` has taken the locals `ids`, which come next after those of `p`. -/
structure Takes (p p' : Program) (ids : List LocalId) : Prop where
  size : p'.locals.size = p.locals.size + ids.length
  ids : ids = (List.range' p.locals.size ids.length).map LocalId.mk

namespace Takes

variable {p p' p'' : Program} {ids ids' : List LocalId}

theorem refl (p : Program) : Takes p p [] :=
  ⟨rfl, rfl⟩

theorem trans (h1 : Takes p p' ids) (h2 : Takes p' p'' ids') : Takes p p'' (ids ++ ids') := by
  refine ⟨?_, ?_⟩
  · rw [h2.size, h1.size, List.length_append, Nat.add_assoc]
  · rw [List.length_append, ← List.range'_append_1, List.map_append, ← h1.ids, ← h1.size, ← h2.ids]

theorem of_adds (h : Lowering.AddsLocals p p' ids) (hlocals : p''.locals = p'.locals) :
    Takes p p'' ids :=
  ⟨by rw [hlocals]; exact h.size, h.ids⟩

end Takes

theorem Program.locals_store {p p' : Program} {callable : Callable} {body : Block}
    (h : p.store callable body = some p') : p'.locals = p.locals := by
  cases callable with
  | function id =>
    obtain ⟨f, _, rfl⟩ := Option.map_eq_some_iff.mp h
    rfl
  | equality id =>
    obtain ⟨m, _, hstore⟩ := Option.bind_eq_some_iff.mp h
    obtain ⟨e, _, rfl⟩ := Option.map_eq_some_iff.mp hstore
    rfl
  | hashing id =>
    obtain ⟨m, _, hstore⟩ := Option.bind_eq_some_iff.mp h
    obtain ⟨b, _, rfl⟩ := Option.map_eq_some_iff.mp hstore
    rfl

end Scribe.Core

namespace Scribe.Syntax

open Scribe.Core (LocalOrigin)

/-! ## The locals that a module asks for -/

mutual

/-- The names that a statement binds, itself or in its parts, and how it binds them. In a `for` the
last part comes before the body. -/
def Stmt.locals : Stmt → List (String × LocalOrigin)
  | .declare name _ => [(name, .declared)]
  | .conditional arms otherwise => armLocals arms ++ otherwiseLocals otherwise
  | .forLoop start _ after body => partLocals start ++ (partLocals after ++ blockLocals body)
  | .forEach item _ body => (item, .forEachItem) :: blockLocals body
  | .assign _ _ | .ret _ | .brk | .cont | .add _ _ | .push _ _ | .pop _ | .call _ _ => []

def blockLocals : List Stmt → List (String × LocalOrigin)
  | [] => []
  | s :: rest => s.locals ++ blockLocals rest

def partLocals : Option Stmt → List (String × LocalOrigin)
  | none => []
  | some s => s.locals

def armLocals : List (Expr × List Stmt) → List (String × LocalOrigin)
  | [] => []
  | (_, block) :: rest => blockLocals block ++ armLocals rest

def otherwiseLocals : Option (List Stmt) → List (String × LocalOrigin)
  | none => []
  | some block => blockLocals block

end

/-- The name that the equality of a model compares with. -/
def Model.otherLocals (md : Model) : List (String × LocalOrigin) :=
  md.equality.toList.map fun e => (e.other, .overrideOther)

/-- The names that the members of a model bind. -/
def Model.memberLocals (md : Model) : List (String × LocalOrigin) :=
  md.methods.flatMap (fun f => blockLocals f.body) ++
    (md.equality.elim [] (fun e => blockLocals e.body) ++ md.hashing.elim [] blockLocals)

/-- The names that a module binds, level by level: in free functions, as what equalities compare
with, and in the members of one model after the other. -/
def Module.locals (m : Module) : List (String × LocalOrigin) :=
  m.functions.flatMap (fun f => blockLocals f.body) ++
    (m.models.flatMap Model.otherLocals ++ m.models.flatMap Model.memberLocals)

end Scribe.Syntax

namespace Scribe.Lowering

open Scribe.Core

/-! ## The queue and the table of locals -/

/-- The stretch that a piece of work takes when it is run. -/
def Deferred.slot (d : Deferred) : Slot :=
  match d.work with
  | .body b => .body b.callable
  | .members id _ => .other id

/-- The stretches that a piece of work leaves for later. -/
def Deferred.memberSlots (p : Program) (d : Deferred) : List Slot :=
  match d.work with
  | .body _ => []
  | .members id _ => p.memberSlots id

theorem slot_deferBodies (scope : Scope) (bodies : List FramedBody) :
    (deferBodies scope bodies).map Deferred.slot = bodies.map fun x => .body x.2.callable := by
  rw [deferBodies, List.map_map]
  rfl

theorem memberSlots_deferBodies (p : Program) (scope : Scope) (bodies : List FramedBody) :
    (deferBodies scope bodies).flatMap (Deferred.memberSlots p) = [] := by
  rw [List.flatMap_eq_nil_iff]
  intro d hd
  obtain ⟨x, _, rfl⟩ := List.mem_map.mp hd
  rfl

section Steps

variable {p p' : Program} {scope : Scope} {c1 : Context}

/-- A body that was run is not touched by the work that comes later. -/
theorem runBody_kept {b : Body} {rest : List Deferred} (h : runBody b ⟨p, scope⟩ = .ok () c1)
    (hrest : Drains c1.program rest p') (hp : Pending p (⟨scope, .body b⟩ :: rest)) :
    p'.body? b.callable = c1.program.body? b.callable := by
  have hready : BodyReady p scope b.callable := hp.ready _ List.mem_cons_self
  obtain ⟨_, hupdates, _⟩ := hrest.done (hp.runBody h)
  refine hupdates.body _ ?_
  rintro ⟨d, hd, hclaims⟩
  have hfirst := runBody_updates h hready hp.signatures
  exact (List.pairwise_cons.mp hp.apart).1 d hd _ rfl ((Work.claims_updates hfirst _ _).mp hclaims)

/-- A body that was run takes the stretch of what it became. -/
theorem runBody_takes {b : Body} {rest : List Deferred} (h : runBody b ⟨p, scope⟩ = .ok () c1)
    (hrest : Drains c1.program rest p') (hp : Pending p (⟨scope, .body b⟩ :: rest)) :
    Takes p c1.program (p'.slotBinders (.body b.callable)) := by
  obtain ⟨body, p1, hlowers, hstore, _⟩ := runBody_eq_ok.mp h
  obtain ⟨c2, hblock, rfl⟩ := hlowers.block
  have hstored := (Program.store_eq_some hstore).1.stored
  rw [Program.slotBinders_body ((runBody_kept h hrest hp).trans hstored)]
  exact .of_adds hblock.adds.1 (Program.locals_store hstore)

section Members

variable {id : ModelId} {m : Syntax.Model} {bodies : List FramedBody} {rest : List Deferred}
  (h : memberBodies id m ⟨p, scope⟩ = .ok bodies c1)
  (hrest : Drains c1.program (rest ++ deferBodies scope bodies) p')
  (hp : Pending p (⟨scope, .members id m⟩ :: rest))

include h hrest hp

/-- The members of a model take what its equality compares with. -/
theorem memberBodies_takes : Takes p c1.program (p'.slotBinders (.other id)) := by
  obtain ⟨hdone, _⟩ := (Drains.members h hrest).done hp
  obtain ⟨_, hequality, _⟩ : Deferred.Done p' ⟨scope, .members id m⟩ := hdone _ List.mem_cons_self
  obtain ⟨_, hupdates, _⟩ := hrest.done (hp.memberBodies h)
  obtain ⟨model, hm⟩ := memberBodies_model h
  obtain ⟨_, _, rfl⟩ := (memberBodies_eq_ok hm).mp h
  cases he : m.equality with
  | none =>
    rw [he] at hequality
    have hnone : p'.slotBinders (.other id) = [] := by
      rw [Program.slotBinders, other?_of_none hequality]
      rfl
    rw [hnone]
    exact .of_adds (.refl p) rfl
  | some e =>
    have hm1 : (withOther p id (some e)).getModel? id = some model := hm
    have hself : ((withOther p id (some e)).withModel id (openHashing m.hashing
        (openEquality ⟨p.locals.size⟩ (some e) model))).getModel? id = _ :=
      getModel?_withModel_self hm1
    have hother : p'.other? (.equality id) = some ⟨p.locals.size⟩ := by
      refine hupdates.grows.other? ?_
      simp only [he]
      rw [Program.other?, hself]
      rfl
    rw [Program.slotBinders, hother]
    exact .of_adds (.single p _) rfl

/-- The bodies that the members of a model leave are those of the model. -/
theorem memberBodies_slots :
    (bodies.map fun x => Slot.body x.2.callable).flatMap p'.slotBinders =
      (p'.memberSlots id).flatMap p'.slotBinders := by
  obtain ⟨hdone, _⟩ := (Drains.members h hrest).done hp
  obtain ⟨_, hequality, hhashing⟩ : Deferred.Done p' ⟨scope, .members id m⟩ :=
    hdone _ List.mem_cons_self
  obtain ⟨_, hready⟩ : scope = [.model id, .program] ∧ MembersReady p id m :=
    hp.ready _ List.mem_cons_self
  obtain ⟨_, hupdates, _⟩ := hrest.done (hp.memberBodies h)
  obtain ⟨model, hm, hlength, _⟩ := hready.methods
  obtain ⟨model1, hm1, hmethods1⟩ := (memberBodies_updates h hready).methods hm
  obtain ⟨model', hm', hmethods'⟩ := hupdates.methods hm1
  obtain ⟨_, rfl, _⟩ := (memberBodies_eq_ok (c := ⟨p, scope⟩) hm).mp h
  have hmethods : (methodBodies model m).map (fun x => Slot.body x.2.callable) =
      (p'.methodsOf id).map fun function => .body (.function function) := by
    rw [Program.methodsOf_eq hm', hmethods', hmethods1]
    have hcallables := congrArg (List.map Slot.body) (callables_methodBodies model hlength)
    rw [List.map_map, List.map_map] at hcallables
    exact hcallables
  have hoverrides : ((overrideBodies id ⟨p.locals.size⟩ m).map
      fun x => Slot.body x.2.callable).flatMap p'.slotBinders =
        [Slot.body (.equality id), .body (.hashing id)].flatMap p'.slotBinders := by
    rw [overrideBodies, List.map_append, List.flatMap_append, List.flatMap_cons,
      List.flatMap_singleton]
    congr 1
    · cases he : m.equality with
      | none =>
        rw [he] at hequality
        rw [Program.slotBinders_of_none hequality]
        rfl
      | some e => exact List.flatMap_singleton _ _
    · cases hb : m.hashing with
      | none =>
        rw [hb] at hhashing
        rw [Program.slotBinders_of_none hhashing]
        rfl
      | some block => exact List.flatMap_singleton _ _
  rw [List.map_append, List.flatMap_append, hmethods, hoverrides, Program.memberSlots,
    List.flatMap_append]

end Members

end Steps

/-- Work takes the stretches of what waits in the queue, first those that are taken at once and then
those that are left for later. -/
theorem Drains.takes {p p' : Program} {ds : List Deferred} (h : Drains p ds p')
    (hp : Pending p ds) :
    Takes p p' ((ds.map Deferred.slot ++ ds.flatMap (Deferred.memberSlots p')).flatMap
      p'.slotBinders) := by
  induction h with
  | nil => exact .refl _
  | @body p p' scope b rest c1 hrun hrest ih =>
    have hfirst := runBody_takes hrun hrest hp
    exact hfirst.trans (ih (hp.runBody hrun))
  | @members p p' scope id m rest bodies c1 hrun hrest ih =>
    have hfirst := memberBodies_takes hrun hrest hp
    have hlater := ih (hp.memberBodies hrun)
    simp only [List.map_append, slot_deferBodies, List.flatMap_append, memberSlots_deferBodies,
      List.append_nil, memberBodies_slots hrun hrest hp, List.append_assoc] at hlater
    have hall := hfirst.trans hlater
    simp only [List.map_cons, List.flatMap_cons, List.cons_append, List.flatMap_append]
    exact hall

theorem slot_functionWork (n : Nat) (fs : List Syntax.Function) :
    (functionWork n fs).map Deferred.slot =
      (List.range' n fs.length).map fun i => .body (.function ⟨i⟩) := by
  induction fs generalizing n with
  | nil => rfl
  | cons f fs ih =>
    rw [functionWork, List.map_cons, ih, List.length_cons, List.range'_succ, List.map_cons]
    rfl

section Traced

variable {m : Syntax.Module} {p : Program} {ts : Tables} (h : Traced m p ts)

include h

theorem Traced.modelIds_eq : p.modelIds = modelIds 0 m.models := by
  have hlength := h.forall₂_models.length_eq
  rw [Array.length_toList] at hlength
  rw [Program.modelIds, modelIds, ← hlength, List.range_eq_range']

/-- The work of a module takes the stretches of its program. -/
theorem Traced.slots_eq :
    (declaredWork m).map Deferred.slot ++ (declaredWork m).flatMap (Deferred.memberSlots p) =
      p.slots := by
  have hids : (numbered m.models).map (·.1) = p.modelIds := by
    rw [h.modelIds_eq, numbered, List.map_fst_zip (by simp [modelIds])]
  have hfunctions : (functionWork 0 m.functions).map Deferred.slot =
      p.freeFunctions.map fun function => .body (.function function) := by
    rw [slot_functionWork, h.freeFunctions_eq, List.map_map, List.range_eq_range']
    rfl
  have hnone : (functionWork 0 m.functions).flatMap (Deferred.memberSlots p) = [] := by
    rw [List.flatMap_eq_nil_iff]
    intro d hd
    obtain ⟨_, _, _, rfl⟩ := exists_of_mem_functionWork hd
    rfl
  rw [declaredWork, List.map_append, List.flatMap_append, hfunctions, hnone, List.nil_append,
    List.append_assoc, Program.slots, ← hids, List.map_map, List.map_map, List.flatMap_map,
    List.flatMap_map]
  rfl

end Traced

/-! ## Names of locals -/

/-- The name and the origin of a local. -/
def localName (p : Program) (id : LocalId) : Option (String × LocalOrigin) :=
  (p.getLocal? id).map fun l => (l.name, l.origin)

section Names

variable {p : Program}

theorem localName_withLocal {q : Program} {l : Local} (hg : (q.withLocal l).Grows p) :
    localName p ⟨q.locals.size⟩ = some (l.name, l.origin) := by
  rw [localName, hg.locals (getLocal?_withLocal_self q l)]
  rfl

mutual

/-- A statement binds the names that it asks for, in order. -/
theorem ElabStmt.localName {c c' s s'} (h : ElabStmt c s s' c') (hg : c'.program.Grows p) :
    s'.binders.map (Lowering.localName p) = s.locals.map some := by
  cases h with
  | simple hs =>
    rw [hs.binders]
    cases hs <;> rfl
  | declare hname he ht hvoid hbind =>
    exact congrArg (· :: []) (localName_withLocal hg)
  | conditional hne harms hotherwise =>
    rw [Stmt.binders, Syntax.Stmt.locals, List.map_append, List.map_append,
      harms.localName (hotherwise.adds.1.grows.trans hg), hotherwise.localName hg]
  | forLoop hstart he hte hafter hbody =>
    have hg2 := hbody.adds.1.grows.trans hg
    have hg1 := hafter.adds.1.grows.trans hg2
    rw [Stmt.binders, Syntax.Stmt.locals, List.map_append, List.map_append, List.map_append,
      List.map_append, hstart.localName hg1, hafter.localName hg2, hbody.localName hg]
  | forEach hname he ht hkind hbody =>
    rw [Stmt.binders, Syntax.Stmt.locals, List.map_cons, List.map_cons, hbody.localName hg]
    exact congrArg (· :: _) (localName_withLocal (hbody.adds.1.grows.trans hg))

theorem ElabStmts.localName {c c' ss ss'} (h : ElabStmts c ss ss' c') (hg : c'.program.Grows p) :
    (blockBinders ss').map (Lowering.localName p) = (Syntax.blockLocals ss).map some := by
  cases h with
  | nil => rfl
  | cons hs hss =>
    rw [blockBinders, Syntax.blockLocals, List.map_append, List.map_append,
      hs.localName (hss.adds.1.grows.trans hg), hss.localName hg]

theorem ElabPart.localName {c c' part part'} (h : ElabPart c part part' c')
    (hg : c'.program.Grows p) :
    (partBinders part').map (Lowering.localName p) = (Syntax.partLocals part).map some := by
  cases h with
  | none => rfl
  | some hs => exact hs.localName hg

theorem ElabArms.localName {c c' arms arms'} (h : ElabArms c arms arms' c')
    (hg : c'.program.Grows p) :
    (armBinders arms').map (Lowering.localName p) = (Syntax.armLocals arms).map some := by
  cases h with
  | nil => rfl
  | cons he hte hblock harms =>
    rw [armBinders, Syntax.armLocals, List.map_append, List.map_append,
      hblock.localName (harms.adds.1.grows.trans hg), harms.localName hg]

theorem ElabOtherwise.localName {c c' otherwise otherwise'}
    (h : ElabOtherwise c otherwise otherwise' c') (hg : c'.program.Grows p) :
    (otherwiseBinders otherwise').map (Lowering.localName p) =
      (Syntax.otherwiseLocals otherwise).map some := by
  cases h with
  | none => rfl
  | some hblock => exact hblock.localName hg

end

theorem MadeFrom.localName {callable : Callable} {scope : Scope} {block : Syntax.Block}
    (h : MadeFrom p callable scope block) :
    (p.slotBinders (.body callable)).map (Lowering.localName p) =
      (Syntax.blockLocals block).map some := by
  obtain ⟨q, q', body, hlowers, hbody, hg, _⟩ := h.made
  obtain ⟨c1, hblock, rfl⟩ := hlowers.block
  rw [Program.slotBinders_body hbody]
  exact hblock.localName hg

theorem EqualityMade.localName {id : ModelId} {e : Option Syntax.Equality}
    (h : EqualityMade p id e) :
    (p.slotBinders (.other id)).map (Lowering.localName p) =
        e.toList.map (fun e => some (e.other, .overrideOther)) ∧
      (p.slotBinders (.body (.equality id))).map (Lowering.localName p) =
        (e.elim [] fun e => Syntax.blockLocals e.body).map some := by
  cases e with
  | none =>
    rw [Program.slotBinders_of_none h, Program.slotBinders, other?_of_none h]
    exact ⟨rfl, rfl⟩
  | some e =>
    obtain ⟨_, other, hother, hlocal, hmade⟩ := h
    refine ⟨?_, hmade.localName⟩
    rw [Program.slotBinders, hother]
    show [Lowering.localName p other] = _
    rw [Lowering.localName, hlocal]
    rfl

theorem HashingMade.localName {id : ModelId} {block : Option Syntax.Block}
    (h : HashingMade p id block) :
    (p.slotBinders (.body (.hashing id))).map (Lowering.localName p) =
      (block.elim [] Syntax.blockLocals).map some := by
  cases block with
  | none =>
    rw [Program.slotBinders_of_none h]
    rfl
  | some block => exact MadeFrom.localName h

end Names

theorem flatMap_of_forall₂ {α β γ : Type} {f : α → List γ} {g : β → List γ} {xs : List α}
    {ys : List β} (h : List.Forall₂ (fun x y => f x = g y) xs ys) :
    xs.flatMap f = ys.flatMap g := by
  induction h with
  | nil => rfl
  | cons hx _ ih => rw [List.flatMap_cons, List.flatMap_cons, hx, ih]

section Traced

variable {m : Syntax.Module} {p : Program} {ts : Tables} (h : Traced m p ts)

include h

theorem Traced.forall₂_freeFunctions :
    List.Forall₂ (FunctionMade p [.program] none) m.functions p.freeFunctions := by
  rw [h.freeFunctions_eq]
  refine List.forall₂_iff_get.mpr ⟨by simp, ?_⟩
  intro i hi hi'
  rw [List.get_eq_getElem, List.get_eq_getElem, List.getElem_map, List.getElem_range]
  exact h.functions (List.getElem?_eq_getElem hi)

theorem Traced.forall₂_modelIds :
    List.Forall₂ (fun md id => ∃ model, p.getModel? id = some model ∧ ModelMade p id md model)
      m.models p.modelIds := by
  rw [h.modelIds_eq, modelIds]
  refine List.forall₂_iff_get.mpr ⟨by simp, ?_⟩
  intro i hi hi'
  rw [List.get_eq_getElem, List.get_eq_getElem, List.getElem_map, List.getElem_range', Nat.zero_add,
    Nat.one_mul]
  exact h.models (List.getElem?_eq_getElem hi)

/-- The stretches hold the names that the module asks for. -/
theorem Traced.localName_slots :
    (p.slots.flatMap p.slotBinders).map (localName p) = m.locals.map some := by
  have hfunctions : (p.freeFunctions.map fun function =>
      Slot.body (.function function)).flatMap (fun slot => (p.slotBinders slot).map (localName p)) =
        m.functions.flatMap fun f => (Syntax.blockLocals f.body).map some := by
    rw [List.flatMap_map]
    exact (flatMap_of_forall₂ (h.forall₂_freeFunctions.imp fun _ _ hf =>
      hf.body.localName.symm)).symm
  have hothers : (p.modelIds.map Slot.other).flatMap
      (fun slot => (p.slotBinders slot).map (localName p)) =
        m.models.flatMap fun md => md.otherLocals.map some := by
    rw [List.flatMap_map]
    refine (flatMap_of_forall₂ (h.forall₂_modelIds.imp ?_)).symm
    rintro md id ⟨model, _, hmade⟩
    rw [hmade.equality.localName.1, Syntax.Model.otherLocals, List.map_map]
    rfl
  have hmembers : p.modelIds.flatMap (fun id =>
      (p.memberSlots id).flatMap fun slot => (p.slotBinders slot).map (localName p)) =
        m.models.flatMap fun md => md.memberLocals.map some := by
    refine (flatMap_of_forall₂ (h.forall₂_modelIds.imp ?_)).symm
    rintro md id ⟨model, hmodel, hmade⟩
    have hmethods : md.methods.flatMap (fun f => (Syntax.blockLocals f.body).map some) =
        model.methods.flatMap fun x =>
          (p.slotBinders (.body (.function x.function))).map (localName p) :=
      flatMap_of_forall₂ (hmade.methods.imp fun _ _ hx => hx.2.body.localName.symm)
    rw [Program.memberSlots, Program.methodsOf_eq hmodel, List.flatMap_append, List.map_map,
      List.flatMap_map, List.flatMap_cons, List.flatMap_singleton, hmade.equality.localName.2,
      hmade.hashing.localName, Syntax.Model.memberLocals, List.map_append, List.map_append,
      List.map_flatMap, hmethods]
    rfl
  rw [List.map_flatMap, Program.slots, List.flatMap_append, List.flatMap_append, hfunctions, hothers,
    List.flatMap_assoc, hmembers, Syntax.Module.locals, List.map_append, List.map_append,
    List.map_flatMap, List.map_flatMap, List.map_flatMap]

/-- Names tell the functions of a program apart. -/
theorem Traced.keyed : p.stripped.Keyed := by
  rw [h.stripped]
  exact h.declares.keyed

/-- The methods of a model are the functions that belong to it. -/
theorem Traced.mem_methodsOf {id : ModelId} {function : FunctionId} :
    function ∈ p.methodsOf id ↔ ∃ f, p.getFunction? function = some f ∧ f.owner = some id := by
  constructor
  · intro hmem
    obtain ⟨model, x, hmodel, hx, rfl⟩ := Program.mem_methodsOf hmem
    obtain ⟨f, hf, _, howner⟩ := h.methodsNamed _ _ hmodel x hx
    exact ⟨f, hf, howner⟩
  · rintro ⟨f, hf, howner⟩
    obtain ⟨⟨owner, g⟩, hid⟩ := (h.exists_function function).mp ⟨f, hf⟩
    obtain ⟨g', hg', hsignature⟩ := (h.functionMade hid).signature
    cases hf.symm.trans hg'
    obtain rfl : owner = some id := hsignature.owner.symm.trans howner
    rcases mem_definitions.mp (List.mem_of_getElem? hid) with ⟨⟨⟩, _⟩ | ⟨i, md, hmd, heq, hg⟩
    cases heq
    obtain ⟨model, hmodel, hmade⟩ := h.models hmd
    obtain ⟨x, hx, _, hmade⟩ := exists_left_of_forall₂ hmade.methods.flip hg
    -- no other function has that owner and that name
    obtain ⟨g'', hg'', hsignature'⟩ := hmade.signature
    have hsame : x.function = function := by
      refine h.keyed.functions (f := g''.stripped) (g := f.stripped) ?_ ?_ ?_ ?_
      · rw [getFunction?_stripped, hg'']
        rfl
      · rw [getFunction?_stripped, hf]
        rfl
      · exact hsignature'.owner.trans howner.symm
      · exact hsignature'.name.trans hsignature.name.symm
    rw [Program.methodsOf_eq hmodel, ← hsame]
    exact List.mem_map.mpr ⟨x, hx, rfl⟩

theorem Traced.nodup_methodsOf (id : ModelId) : (p.methodsOf id).Nodup := by
  cases hmodel : p.getModel? id with
  | none =>
    rw [Program.methodsOf, hmodel]
    exact .nil
  | some model =>
    rw [Program.methodsOf_eq hmodel]
    refine List.Nodup.map_on ?_ (List.Nodup.of_map _ (h.nodup_methods hmodel))
    intro x hx y hy heq
    obtain ⟨f, hf, hname, _⟩ := h.methodsNamed _ _ hmodel x hx
    obtain ⟨g, hg, hname', _⟩ := h.methodsNamed _ _ hmodel y hy
    rw [heq] at hf
    cases hf.symm.trans hg
    exact List.inj_on_of_nodup_map (h.nodup_methods hmodel) hx hy (hname.symm.trans hname')

theorem Traced.forall₂_functions :
    List.Forall₂ (fun x f => SignatureOf p x.1 x.2 f) (definitions m) p.functions.toList := by
  have hlength : (definitions m).length = p.functions.toList.length := by
    show (definitions m).length = p.functions.size
    rw [h.declares.forall₂_definitions.length_eq, h.size_functions, List.length_append]
  refine List.forall₂_iff_get.mpr ⟨hlength, ?_⟩
  intro i hi hi'
  have hid : (definitions m)[(⟨i⟩ : FunctionId).index]? = some (definitions m)[i] :=
    List.getElem?_eq_getElem hi
  obtain ⟨f, hf, hsignature⟩ := (h.functionMade hid).signature
  have hget : p.getFunction? ⟨i⟩ = some (p.functions.toList.get ⟨i, hi'⟩) := by
    rw [Program.getFunction?, ← Array.getElem?_toList, List.getElem?_eq_getElem hi']
    rfl
  cases hf.symm.trans hget
  exact hsignature

end Traced

/-! ## The order of the tables -/

/-- The tables of a program are in the order of a module. -/
structure LaidOut (m : Syntax.Module) (p : Program) : Prop where
  constants : p.constants.toList.map (·.name) = m.constants.map (·.name)
  models : p.models.toList.map (·.name) = m.models.map (·.name)
  /-- Free functions come first, then the methods of one model after the other. -/
  functions : List.Forall₂ (fun x f => SignatureOf p x.1 x.2 f) (definitions m) p.functions.toList
  freeFunctions : List.Forall₂ (FunctionMade p [.program] none) m.functions p.freeFunctions
  methods : List.Forall₂
    (fun md id => List.Forall₂ (FunctionMade p [.model id, .program] (some id)) md.methods
      (p.methodsOf id)) m.models p.modelIds
  /-- A function without an owner is found by its name, and is a method of no model. -/
  unowned : ∀ {id f}, p.getFunction? id = some f → f.owner = none →
    p.function? f.name = some id ∧ ∀ model, id ∉ p.methodsOf model
  /-- A function with an owner is not found by its name, and is once a method of its owner and of no
  other model. -/
  owned : ∀ {id f owner}, p.getFunction? id = some f → f.owner = some owner →
    (∀ name, p.function? name ≠ some id) ∧ (p.methodsOf owner).count id = 1 ∧
      ∀ model, id ∈ p.methodsOf model → model = owner
  /-- The stretches of the table of locals, one after the other, are the whole table. -/
  slots : p.slots.flatMap p.slotBinders = (List.range p.locals.size).map LocalId.mk
  /-- The names in the table of locals are those that the module binds, level by level. -/
  locals : p.locals.toList.map (fun l => (l.name, l.origin)) = m.locals

theorem lower_slots {m : Syntax.Module} {limit : Option Nat} {p : Program}
    (h : lower m limit = .ok p) :
    p.slots.flatMap p.slotBinders = (List.range p.locals.size).map LocalId.mk := by
  obtain ⟨_, _, htraced⟩ := lower_traced h
  obtain ⟨_, ts, hdeclares, hdrains⟩ := lower_drains h
  have htakes := hdrains.takes hdeclares.pending
  rw [htraced.slots_eq] at htakes
  have hzero : (declaredProgram m ts).locals.size = 0 := rfl
  have hsize := htakes.size
  rw [hzero, Nat.zero_add] at hsize
  rw [htakes.ids, hzero, hsize, List.range_eq_range']

theorem map_getElem?_range {α : Type} (xs : Array α) :
    (List.range xs.size).map (fun i => xs[i]?) = xs.toList.map some := by
  refine List.ext_getElem (by simp) fun i hi _ => ?_
  simp

/-- **A lowered program is laid out level by level.** -/
theorem lower_laidOut {m : Syntax.Module} {limit : Option Nat} {p : Program}
    (h : lower m limit = .ok p) : LaidOut m p := by
  obtain ⟨_, ts, htraced⟩ := lower_traced h
  have hslots := lower_slots h
  refine ⟨?_, htraced.modelNames, htraced.forall₂_functions, htraced.forall₂_freeFunctions, ?_, ?_,
    ?_, hslots, ?_⟩
  · rw [htraced.constants_eq]
    exact htraced.declares.constants.names.1
  · refine htraced.forall₂_modelIds.imp ?_
    rintro md id ⟨model, hmodel, hmade⟩
    rw [Program.methodsOf_eq hmodel]
    exact List.forall₂_map_right_iff.mpr (hmade.methods.imp fun _ _ hx => hx.2)
  · intro id f hf howner
    refine ⟨htraced.indexed.function?_eq_some.mpr ⟨f, hf, howner, rfl⟩, fun model hmem => ?_⟩
    obtain ⟨f', hf', howner'⟩ := htraced.mem_methodsOf.mp hmem
    cases hf.symm.trans hf'
    cases howner.symm.trans howner'
  · intro id f owner hf howner
    refine ⟨fun name hname => ?_, ?_, fun model hmem => ?_⟩
    · obtain ⟨f', hf', howner', _⟩ := htraced.indexed.function?_eq_some.mp hname
      cases hf.symm.trans hf'
      cases howner.symm.trans howner'
    · exact List.count_eq_one_of_mem (htraced.nodup_methodsOf owner)
        (htraced.mem_methodsOf.mpr ⟨f, hf, howner⟩)
    · obtain ⟨f', hf', howner'⟩ := htraced.mem_methodsOf.mp hmem
      cases hf.symm.trans hf'
      exact Option.some.inj (howner'.symm.trans howner)
  · -- the names of all stretches are the names of the whole table
    have hnames := htraced.localName_slots
    rw [hslots, List.map_map] at hnames
    have htable : (List.range p.locals.size).map (localName p ∘ LocalId.mk) =
        (p.locals.toList.map fun l => (l.name, l.origin)).map some := by
      have hmap := congrArg (List.map (Option.map fun l : Local => (l.name, l.origin)))
        (map_getElem?_range p.locals)
      rw [List.map_map, List.map_map] at hmap
      rw [List.map_map]
      exact hmap
    rw [htable] at hnames
    exact List.map_injective_iff.mpr (Option.some_injective _) hnames

theorem parcelProgram_laidOut :
    lower parcelModule none = .ok parcelProgram ∧ LaidOut parcelModule parcelProgram ∧
      parcelModule.locals = [("sum", .declared), ("parcel", .forEachItem), ("other", .overrideOther),
        ("inner", .declared), ("theirs", .declared), ("inner", .declared)] :=
  ⟨lower_parcelModule, lower_laidOut lower_parcelModule, rfl⟩

end Scribe.Lowering
