import Scribe.Proofs.Drains

/-!
# Running the queue

`Pending p ds` holds of a program and the work that is left: every body is complete or claimed by
one piece of work, and what the work needs is there. It holds when everything is declared, and
running the first piece of work keeps it. With no work left it says that the program is sound
(`lower_pending`).
-/

namespace Scribe.Lowering

open Scribe.Core

/-! ## Work that can be run -/

/-- A body can be lowered in a scope. -/
structure BodyReady (p : Program) (scope : Scope) (callable : Callable) : Prop where
  frames : ∀ frame ∈ scope, frame.Fits p (.entry p callable)
  inLoop : scope.inLoop = false
  empty : p.body? callable = some []

/-- The members of a model can be taken up: its methods are the functions that it owns, in the order
of their declaration, and it has no overrides yet. -/
structure MembersReady (p : Program) (id : ModelId) (m : Syntax.Model) : Prop where
  equality : p.body? (.equality id) = none
  hashing : p.body? (.hashing id) = none
  methods : ∃ model, p.getModel? id = some model ∧
    model.methods.length = m.methods.length ∧ (model.methods.map (·.function)).Nodup ∧
    (∀ x ∈ model.methods, p.owner? (.function x.function) = some id ∧
      p.body? (.function x.function) = some []) ∧
    ∀ f, p.owner? (.function f) = some id → ∃ x ∈ model.methods, x.function = f

/-- Work that can be run. -/
def Deferred.Ready (p : Program) (d : Deferred) : Prop :=
  match d.work with
  | .body b => BodyReady p d.scope b.callable
  | .members id m => d.scope = [.model id, .program] ∧ MembersReady p id m

section Updates

variable {p p' : Program} {C : Callable → Prop} (h : p.Updates C p')

include h

theorem Work.claims_updates (w : Work) (callable : Callable) :
    w.Claims p' callable ↔ w.Claims p callable := by
  cases w with
  | body b => exact Iff.rfl
  | members id m =>
    show p'.owner? callable = some id ↔ p.owner? callable = some id
    rw [h.owner]

theorem Apart.updates {ds : List Deferred} (hds : Apart p ds) : Apart p' ds := by
  refine hds.imp ?_
  intro d d' hd callable hclaims hclaims'
  rw [Work.claims_updates h] at hclaims hclaims'
  exact hd callable hclaims hclaims'

theorem BodyReady.updates {scope : Scope} {callable : Callable} (hb : BodyReady p scope callable)
    (hC : ¬C callable) : BodyReady p' scope callable :=
  ⟨fun frame hframe => (hb.frames frame hframe).grows h.grows
      (Site.entry_le h.grows h.constants callable),
    hb.inLoop, (h.body callable hC).trans hb.empty⟩

theorem Deferred.Ready.updates {d : Deferred} (hd : d.Ready p)
    (hC : ∀ callable, d.work.Claims p callable → ¬C callable) : d.Ready p' := by
  obtain ⟨scope, work⟩ := d
  cases work with
  | body b => exact BodyReady.updates h hd (hC b.callable rfl)
  | members id m =>
    obtain ⟨hscope, hmembers⟩ := hd
    obtain ⟨model, hmodel, hlength, hnodup, hmethods, hall⟩ := hmembers.methods
    obtain ⟨model', hmodel', heq⟩ := h.methods hmodel
    refine ⟨hscope, (h.body _ (hC (.equality id) rfl)).trans hmembers.equality,
      (h.body _ (hC (.hashing id) rfl)).trans hmembers.hashing, model', hmodel', ?_⟩
    rw [heq]
    refine ⟨hlength, hnodup, ?_, ?_⟩
    · intro x hx
      obtain ⟨howner, hbody⟩ := hmethods x hx
      exact ⟨(h.owner _).trans howner, (h.body _ (hC _ howner)).trans hbody⟩
    · intro f hf
      rw [h.owner] at hf
      exact hall f hf

end Updates

/-! ## The invariant of the queue -/

/-- The local that an equality compares with is an instance of its model. -/
def OtherSound (p : Program) (model : ModelId) : Prop :=
  ∀ id, p.other? (.equality model) = some id →
    ∃ l, p.getLocal? id = some l ∧ l.origin = .overrideOther ∧ l.type = .model model

/-- Every local is bound, and bound once. -/
def BoundOnce (p : Program) : Prop :=
  p.binders.Perm ((List.range p.locals.size).map LocalId.mk)

/-- A program on the way, and the work that is left. -/
structure Pending (p : Program) (ds : List Deferred) : Prop where
  signatures : p.Signatures
  constants : p.ConstantsSound
  ready : ∀ d ∈ ds, d.Ready p
  apart : Apart p ds
  bodies : ∀ {callable body}, p.body? callable = some body →
    (∃ d ∈ ds, d.work.Claims p callable) ∨ p.Complete callable body
  others : ∀ model, OtherSound p model
  bound : BoundOnce p

variable {p p' : Program} {callable : Callable} {scope : Scope} {model : Model} {m : Syntax.Model}

/-- Running the first piece of work changes the callables that it claims and leaves work `ds'` for
some of them. -/
theorem Pending.step {d : Deferred} {rest ds' : List Deferred} (h : Pending p (d :: rest))
    (hu : p.Updates (d.work.Claims p) p') (hready : ∀ d' ∈ ds', d'.Ready p')
    (hclaims : ∀ d' ∈ ds', ∀ callable, d'.work.Claims p' callable → d.work.Claims p callable)
    (hapart : Apart p' ds')
    (hbodies : ∀ {callable body}, d.work.Claims p callable → p'.body? callable = some body →
        (∃ d' ∈ ds', d'.work.Claims p' callable) ∨ p'.Complete callable body)
    (hothers : ∀ model, d.work.Claims p (.equality model) → OtherSound p' model)
    (hbound : BoundOnce p') : Pending p' (rest ++ ds') := by
  obtain ⟨hfirst, hrest⟩ := List.pairwise_cons.mp h.apart
  refine ⟨hu.signatures h.signatures, h.constants.grows hu.grows hu.constants, ?_, ?_, ?_, ?_,
    hbound⟩
  · -- work is apart, so what `d` changes is not what other work needs
    intro d' hd'
    obtain hd' | hd' := List.mem_append.mp hd'
    · refine (h.ready d' (List.mem_cons_of_mem _ hd')).updates hu ?_
      intro callable hc' hc
      exact hfirst d' hd' callable hc hc'
    · exact hready d' hd'
  · refine List.pairwise_append.mpr ⟨Apart.updates hu hrest, hapart, ?_⟩
    intro a ha b hb callable hca hcb
    rw [Work.claims_updates hu] at hca
    exact hfirst a ha callable (hclaims b hb callable hcb) hca
  · intro callable body hbody
    by_cases hc : d.work.Claims p callable
    · obtain ⟨d', hd', hclaim⟩ | hcomplete := hbodies hc hbody
      · exact .inl ⟨d', List.mem_append_right _ hd', hclaim⟩
      · exact .inr hcomplete
    · rw [hu.body callable hc] at hbody
      obtain ⟨d', hd', hclaim⟩ | hcomplete := h.bodies hbody
      · obtain rfl | hd' := List.mem_cons.mp hd'
        · exact (hc hclaim).elim
        · exact .inl ⟨d', List.mem_append_left _ hd', (Work.claims_updates hu _ _).mpr hclaim⟩
      · exact .inr (hcomplete.grows hu.grows hu.constants)
  · intro model
    by_cases hc : d.work.Claims p (.equality model)
    · exact hothers model hc
    · intro id hid
      rw [hu.other _ hc] at hid
      obtain ⟨l, hl, hrest⟩ := h.others model id hid
      exact ⟨l, hu.grows.locals hl, hrest⟩

/-! ## Bodies -/

theorem range_append_ids {n : Nat} {ids : List LocalId}
    (h : ids = (List.range' n ids.length).map LocalId.mk) :
    (List.range n).map LocalId.mk ++ ids = (List.range (n + ids.length)).map LocalId.mk := by
  rw [List.range_eq_range', List.range_eq_range', ← List.range'_append_1,
    List.map_append, Nat.zero_add, ← h]

/-- The locals that a body binds are new. -/
theorem BoundOnce.stored {p p1 p' : Program} {body : Block} (h : BoundOnce p)
    (hempty : p.body? callable = some []) (hadds : AddsLocals p p1 (blockBinders body))
    (hstored : Stored p1 p' callable body) : BoundOnce p' := by
  have hbinders : p1.binders = p.binders := by
    rw [hadds.same]
    rfl
  have hempty1 : p1.body? callable = some [] := (hadds.body? callable).trans hempty
  unfold BoundOnce at *
  rw [hstored.locals, hadds.size, ← range_append_ids hadds.ids]
  refine (hstored.binders hempty1).trans ?_
  rw [hbinders]
  exact h.append_right _

theorem Pending.runBody {b : Body} {rest : List Deferred} {u : Unit} {c' : Context}
    (h : Pending p (⟨scope, .body b⟩ :: rest)) (hrun : runBody b ⟨p, scope⟩ = .ok u c') :
    Pending c'.program rest := by
  have hready : BodyReady p scope b.callable := h.ready _ List.mem_cons_self
  obtain ⟨block, body, c1, hbody, hstored⟩ := runBody_stored hrun
  have hfits : (⟨p, scope⟩ : Context).Fits (.entry p b.callable) :=
    ⟨h.signatures, hready.frames, Nat.le_refl _⟩
  obtain ⟨hadds, hsignatures, hcomplete⟩ := lowerBody_complete hfits hready.inLoop hbody
  have hupdates := (hadds.updates (fun _ => hsignatures) (· = b.callable)).trans hstored.updates
  rw [← List.append_nil rest]
  refine h.step hupdates (List.forall_mem_nil _) (List.forall_mem_nil _) .nil ?_ ?_
    (h.bound.stored hready.empty hadds hstored)
  · intro callable body' hclaim hbody'
    cases hclaim
    rw [hstored.stored] at hbody'
    cases hbody'
    exact .inr (hcomplete.grows hstored.updates.grows hstored.updates.constants)
  · intro model hclaim id hid
    have hclaim : Callable.equality model = b.callable := hclaim
    have hother : p.other? (.equality model) = some id := by
      rw [← (hadds.updates (fun _ => hsignatures) fun _ => False).other _ (fun h => h), hclaim,
        ← hstored.other, ← hclaim]
      exact hid
    obtain ⟨l, hl, hrest⟩ := h.others model id hother
    exact ⟨l, hupdates.grows.locals hl, hrest⟩

/-! ## Members of a model -/

/-- An override is taken up: it becomes the body of a callable of the model, still empty. -/
structure Opens (id : ModelId) (callable : Callable) (p p' : Program) (bodies : List FramedBody) :
    Prop where
  updates : p.Updates (· = callable) p'
  callables : ∀ x ∈ bodies, x.2.callable = callable
  ready : ∀ x ∈ bodies, BodyReady p' [x.1, .model id, .program] callable
  single : bodies.length ≤ 1
  covers : (p'.body? callable).isSome → bodies ≠ []
  bound : BoundOnce p → BoundOnce p'

theorem Opens.none {id : ModelId} (hnone : p.body? callable = none) : Opens id callable p p [] := by
  refine ⟨.refl p, List.forall_mem_nil _, List.forall_mem_nil _, Nat.zero_le _, ?_, fun h => h⟩
  intro hsome
  rw [hnone] at hsome
  cases hsome

section Opens

variable {p : Program} {id : ModelId} {m : Model} (hm : p.getModel? id = some m)

include hm

theorem opens_equality (hnone : m.equality = none) (name : String) (block : Syntax.Block) :
    let p' := (p.withLocal ⟨name, .model id, .overrideOther⟩).withModel id
      { m with equality := some ⟨⟨p.locals.size⟩, []⟩ }
    Opens id (.equality id) p p'
      [(.equality id ⟨name, ⟨p.locals.size⟩⟩, .equality id block)] ∧ OtherSound p' id := by
  intro p'
  have hknown : (Ty.model id).Known p := ⟨m, hm⟩
  have hm1 : (p.withLocal ⟨name, .model id, .overrideOther⟩).getModel? id = some m := hm
  have hgrows : m.Grows { m with equality := some ⟨⟨p.locals.size⟩, []⟩ } :=
    ⟨rfl, List.prefix_refl _, List.prefix_refl _, fun {e} he => by rw [hnone] at he; cases he⟩
  have hupdates : p.Updates (· = .equality id) p' :=
    ((AddsLocals.single p _).updates (withLocal_signatures · hknown) _).trans
    (withModel_updates hm1 hgrows rfl (fun hne => (hne rfl).elim) (fun _ => rfl))
  have hself : p'.getModel? id = some { m with equality := some ⟨⟨p.locals.size⟩, []⟩ } :=
    getModel?_withModel_self hm1
  have hlocal : p'.getLocal? ⟨p.locals.size⟩ = some ⟨name, .model id, .overrideOther⟩ :=
    getLocal?_withLocal_self p _
  have hother : p'.other? (.equality id) = some ⟨p.locals.size⟩ := by
    rw [Program.other?, hself]
    rfl
  refine ⟨⟨hupdates, List.forall_mem_singleton.mpr rfl, List.forall_mem_singleton.mpr ⟨?_, rfl, ?_⟩,
    Nat.le_refl _, fun _ => by rintro ⟨⟩, ?_⟩, ?_⟩
  · refine List.forall_mem_cons.mpr ⟨⟨rfl, ?_, _, hlocal⟩,
      List.forall_mem_cons.mpr ⟨⟨rfl, _, hself⟩, List.forall_mem_singleton.mpr trivial⟩⟩
    exact Option.mem_toList.mpr hother
  · rw [Program.body?, hself]
    rfl
  · intro hbound
    have hperm : p'.binders.Perm (p.binders ++ [⟨p.locals.size⟩]) := by
      refine withModel_binders hm1 ?_
      unfold Program.modelBinders
      rw [hnone]
      exact List.perm_append_comm
    have hadds := AddsLocals.single p ⟨name, .model id, .overrideOther⟩
    unfold BoundOnce at *
    rw [show p'.locals.size = _ from hadds.size, ← range_append_ids hadds.ids]
    exact hperm.trans (hbound.append_right _)
  · intro lid hlid
    rw [hother] at hlid
    cases hlid
    exact ⟨_, hlocal, rfl, rfl⟩

theorem opens_hashing (hnone : m.hashing = none) (block : Syntax.Block) :
    Opens id (.hashing id) p (p.withModel id { m with hashing := some [] })
      [(.hashing id, .hashing id block)] := by
  have hgrows : m.Grows { m with hashing := some [] } :=
    ⟨rfl, List.prefix_refl _, List.prefix_refl _, fun {e} he => ⟨e, he, rfl⟩⟩
  have hself := getModel?_withModel_self (m := { m with hashing := some [] }) hm
  refine ⟨withModel_updates hm hgrows rfl (fun _ => rfl) (fun hne => (hne rfl).elim),
    List.forall_mem_singleton.mpr rfl, List.forall_mem_singleton.mpr ⟨?_, rfl, ?_⟩, Nat.le_refl _,
    fun _ => by rintro ⟨⟩, ?_⟩
  · exact List.forall_mem_cons.mpr ⟨rfl,
      List.forall_mem_cons.mpr ⟨⟨rfl, _, hself⟩, List.forall_mem_singleton.mpr trivial⟩⟩
  · rw [Program.body?, hself]
    rfl
  · intro hbound
    have hperm : (p.withModel id { m with hashing := some [] }).binders.Perm (p.binders ++ []) := by
      refine withModel_binders hm ?_
      unfold Program.modelBinders
      rw [hnone, List.append_nil]
      exact .refl _
    rw [List.append_nil] at hperm
    exact hperm.trans hbound

end Opens

variable {c c' : Context} {id : ModelId} {bodies : List FramedBody}

theorem equalityBody_opens (hm : c.program.getModel? id = some model) {e : Option Syntax.Equality}
    (h : equalityBody id e c = .ok bodies c') (hnone : c.program.body? (.equality id) = none) :
    Opens id (.equality id) c.program c'.program bodies ∧ OtherSound c'.program id := by
  have hequality : model.equality = none := by
    rw [Program.body?, hm, Option.bind_some] at hnone
    exact Option.map_eq_none_iff.mp hnone
  obtain ⟨_, rfl, rfl⟩ := (equalityBody_eq_ok hm).mp h
  cases e with
  | none =>
    show Opens id _ c.program (c.program.withModel id model) [] ∧
      OtherSound (c.program.withModel id model) id
    rw [withModel_self hm]
    refine ⟨.none hnone, fun lid hlid => ?_⟩
    rw [Program.other?, hm, Option.bind_some, hequality] at hlid
    cases hlid
  | some e => exact opens_equality hm hequality e.other e.body

theorem hashingBody_opens (hm : c.program.getModel? id = some model) {block : Option Syntax.Block}
    (h : hashingBody id block c = .ok bodies c') (hnone : c.program.body? (.hashing id) = none) :
    Opens id (.hashing id) c.program c'.program bodies := by
  obtain ⟨rfl, rfl⟩ := (hashingBody_eq_ok hm).mp h
  cases block with
  | none =>
    show Opens id _ c.program (c.program.withModel id model) []
    rw [withModel_self hm]
    exact .none hnone
  | some block =>
    rw [Program.body?, hm, Option.bind_some] at hnone
    exact opens_hashing hm hnone block

/-- The methods of a model are there already; its overrides are opened when its members are taken
up, the equality before the hash. -/
theorem memberBodies_opens (h : memberBodies id m c = .ok bodies c')
    (hready : MembersReady c.program id m) (hm : c.program.getModel? id = some model) :
    ∃ p1 es hs, bodies = methodBodies model m ++ es ++ hs ∧
      Opens id (.equality id) c.program p1 es ∧ OtherSound p1 id ∧
      Opens id (.hashing id) p1 c'.program hs := by
  rw [memberBodies_eq] at h
  simp only [Step.bind_eq_ok, modelAt_eq_ok, Step.pure_eq_ok] at h
  obtain ⟨_, _, ⟨hm', rfl⟩, es, c1, hes, hs, c2, hhs, rfl, rfl⟩ := h
  cases hm.symm.trans hm'
  obtain ⟨hopens, hother⟩ := equalityBody_opens hm hes hready.equality
  obtain ⟨model1, hm1, _⟩ := hopens.updates.methods hm
  have hhashing : c1.program.body? (.hashing id) = none :=
    (hopens.updates.body (.hashing id) (by rintro ⟨⟩)).trans hready.hashing
  exact ⟨c1.program, es, hs, rfl, hopens, hother, hashingBody_opens hm1 hhs hhashing⟩

theorem apart_deferBodies (h : (bodies.map (·.2.callable)).Nodup) :
    Apart p (deferBodies scope bodies) := by
  refine List.pairwise_map.mpr ((List.pairwise_map.mp h).imp ?_)
  intro x y hne callable hx hy
  exact hne (hx.symm.trans hy)

theorem callables_methodBodies (model : Model) (hlength : model.methods.length = m.methods.length) :
    (methodBodies model m).map (·.2.callable) =
      (model.methods.map (·.function)).map Callable.function := by
  have hfst : ((model.methods.map (·.function)).zip m.methods).map (·.1) =
      model.methods.map (·.function) := by
    refine List.map_fst_zip (Nat.le_of_eq ?_)
    rw [List.length_map, hlength]
  unfold methodBodies
  rw [List.map_map]
  conv => rhs; rw [← hfst, List.map_map]
  rfl

theorem mem_methodBodies {x : FramedBody} (hx : x ∈ methodBodies model m) :
    ∃ y ∈ model.methods, x.1 = .function y.function ∧ x.2.callable = .function y.function := by
  obtain ⟨z, hz, rfl⟩ := List.mem_map.mp hx
  obtain ⟨y, hy, hyz⟩ := List.mem_map.mp (List.of_mem_zip hz).1
  exact ⟨y, hy, by rw [hyz], by rw [hyz]; rfl⟩

theorem Opens.nodup (h : Opens id callable p p' bodies) : (bodies.map (·.2.callable)).Nodup := by
  cases bodies with
  | nil => exact .nil
  | cons x rest =>
    cases rest with
    | nil => exact List.pairwise_singleton _ _
    | cons y rest => exact absurd h.single (by simp)

theorem Opens.mem_callables {callable callable' : Callable} (h : Opens id callable p p' bodies)
    (hmem : callable' ∈ bodies.map (·.2.callable)) : callable' = callable := by
  obtain ⟨x, hx, rfl⟩ := List.mem_map.mp hmem
  exact h.callables x hx

section Members

variable {p p1 p2 : Program} {model : Model} {m : Syntax.Model} {es hs : List FramedBody}
  (h1 : Opens id (.equality id) p p1 es) (h2 : Opens id (.hashing id) p1 p2 hs)

include h1 h2

theorem members_updates : p.Updates (fun callable => p.owner? callable = some id) p2 := by
  refine (h1.updates.mono ?_).trans (h2.updates.mono ?_)
  · rintro _ rfl
    rfl
  · rintro _ rfl
    rfl

theorem members_ready {scope : Scope} (hscope : scope = [.model id, .program])
    (hmodel : p.getModel? id = some model)
    (hmethods : ∀ x ∈ model.methods, p.owner? (.function x.function) = some id ∧
      p.body? (.function x.function) = some []) :
    ∀ x ∈ methodBodies model m ++ es ++ hs,
      BodyReady p2 (x.1 :: scope) x.2.callable ∧ p.owner? x.2.callable = some id := by
  have hupdates := members_updates h1 h2
  obtain ⟨model', hmodel', _⟩ := hupdates.methods hmodel
  -- the overrides do not touch the methods
  have hbody (f : FunctionId) : p2.body? (.function f) = p.body? (.function f) :=
    (h2.updates.body _ (by rintro ⟨⟩)).trans (h1.updates.body _ (by rintro ⟨⟩))
  rw [hscope]
  intro x hx
  obtain hx | hx := List.mem_append.mp hx
  · obtain hx | hx := List.mem_append.mp hx
    · obtain ⟨y, hy, hframe, hcallable⟩ := mem_methodBodies hx
      obtain ⟨howner, hempty⟩ := hmethods y hy
      have howned : p2.owner? (.function y.function) = some id :=
        (hupdates.owner _).trans howner
      rw [hframe, hcallable]
      refine ⟨⟨?_, rfl, (hbody _).trans hempty⟩, howner⟩
      exact List.forall_mem_cons.mpr ⟨rfl, List.forall_mem_cons.mpr
        ⟨⟨howned, model', hmodel'⟩, List.forall_mem_singleton.mpr trivial⟩⟩
    · rw [h1.callables x hx]
      exact ⟨(h1.ready x hx).updates h2.updates (by rintro ⟨⟩), rfl⟩
  · rw [h2.callables x hx]
    exact ⟨h2.ready x hx, rfl⟩

variable (hlength : model.methods.length = m.methods.length)

include hlength

/-- Methods, equality and hash are different callables. -/
theorem nodup_members (hnodup : (model.methods.map (·.function)).Nodup) :
    ((methodBodies model m ++ es ++ hs).map (·.2.callable)).Nodup := by
  rw [List.map_append, List.map_append, callables_methodBodies model hlength]
  refine List.nodup_append.mpr ⟨List.nodup_append.mpr ⟨?_, h1.nodup, ?_⟩, h2.nodup, ?_⟩
  · exact List.pairwise_map.mpr (hnodup.imp fun hne heq => hne (Callable.function.inj heq))
  · intro a ha b hb
    obtain ⟨f, _, rfl⟩ := List.mem_map.mp ha
    rw [h1.mem_callables hb]
    rintro ⟨⟩
  · intro a ha b hb
    rw [h2.mem_callables hb]
    obtain ha | ha := List.mem_append.mp ha
    · obtain ⟨f, _, rfl⟩ := List.mem_map.mp ha
      rintro ⟨⟩
    · rw [h1.mem_callables ha]
      rintro ⟨⟩

/-- Whatever belongs to the model and has a body by now is among its members. -/
theorem mem_members
    (hall : ∀ f, p.owner? (.function f) = some id → ∃ x ∈ model.methods, x.function = f)
    {callable : Callable} {body : Block} (howner : p.owner? callable = some id)
    (hbody : p2.body? callable = some body) :
    callable ∈ (methodBodies model m ++ es ++ hs).map (·.2.callable) := by
  rw [List.map_append, List.map_append, callables_methodBodies model hlength]
  cases callable with
  | function f =>
    obtain ⟨y, hy, rfl⟩ := hall f howner
    exact List.mem_append_left _ (List.mem_append_left _
      (List.mem_map.mpr ⟨_, List.mem_map.mpr ⟨y, hy, rfl⟩, rfl⟩))
  | equality id' =>
    cases Option.some.inj howner
    rw [h2.updates.body (.equality id) (by rintro ⟨⟩)] at hbody
    obtain ⟨x, hx⟩ := List.exists_mem_of_ne_nil es (h1.covers (by rw [hbody]; rfl))
    exact List.mem_append_left _ (List.mem_append_right _
      (List.mem_map.mpr ⟨x, hx, h1.callables x hx⟩))
  | hashing id' =>
    cases Option.some.inj howner
    obtain ⟨x, hx⟩ := List.exists_mem_of_ne_nil hs (h2.covers (by rw [hbody]; rfl))
    exact List.mem_append_right _ (List.mem_map.mpr ⟨x, hx, h2.callables x hx⟩)

end Members

/-- The members of a model become one piece of work each. -/
theorem Pending.memberBodies {rest : List Deferred} (h : Pending p (⟨scope, .members id m⟩ :: rest))
    (hrun : memberBodies id m ⟨p, scope⟩ = .ok bodies c') :
    Pending c'.program (rest ++ deferBodies scope bodies) := by
  obtain ⟨hscope, hmembers⟩ : scope = [.model id, .program] ∧ MembersReady p id m :=
    h.ready _ List.mem_cons_self
  obtain ⟨model, hmodel, hlength, hnodup, hmethods, hall⟩ := hmembers.methods
  obtain ⟨p1, es, hs, rfl, h1, hother, h2⟩ := memberBodies_opens hrun hmembers hmodel
  have hready := members_ready (m := m) h1 h2 hscope hmodel hmethods
  refine h.step (members_updates h1 h2) ?_ ?_
    (apart_deferBodies (nodup_members h1 h2 hlength hnodup)) ?_ ?_ (h2.bound (h1.bound h.bound))
  · intro d hd
    obtain ⟨x, hx, rfl⟩ := List.mem_map.mp hd
    exact (hready x hx).1
  · intro d hd callable hclaim
    obtain ⟨x, hx, rfl⟩ := List.mem_map.mp hd
    rw [show callable = x.2.callable from hclaim]
    exact (hready x hx).2
  · intro callable body howner hbody
    obtain ⟨x, hx, rfl⟩ := List.mem_map.mp (mem_members h1 h2 hlength hall howner hbody)
    exact .inl ⟨_, List.mem_map.mpr ⟨x, hx, rfl⟩, rfl⟩
  · intro model' hclaim
    cases Option.some.inj hclaim
    intro lid hlid
    rw [h2.updates.other (.equality id) (by rintro ⟨⟩)] at hlid
    obtain ⟨l, hl, hrest⟩ := hother lid hlid
    exact ⟨l, h2.updates.grows.locals hl, hrest⟩

/-! ## The whole queue -/

/-- A skeleton binds nothing. -/
theorem Skeleton.boundOnce (hp : p.Skeleton) : BoundOnce p := by
  have hfunctions : p.functions.toList.flatMap (fun f => blockBinders f.body) = [] := by
    refine List.flatMap_eq_nil_iff.mpr fun f hf => ?_
    obtain ⟨i, hi⟩ := List.mem_iff_getElem?.mp hf
    rw [Array.getElem?_toList] at hi
    rw [hp.bodies (show p.getFunction? ⟨i⟩ = some f from hi)]
    rfl
  have hmodels : p.models.toList.flatMap Program.modelBinders = [] := by
    refine List.flatMap_eq_nil_iff.mpr fun m hm => ?_
    obtain ⟨i, hi⟩ := List.mem_iff_getElem?.mp hm
    rw [Array.getElem?_toList] at hi
    obtain ⟨hequality, hhashing⟩ := hp.overrides (show p.getModel? ⟨i⟩ = some m from hi)
    rw [Program.modelBinders, hequality, hhashing]
    rfl
  unfold BoundOnce Program.binders
  rw [hfunctions, hmodels, hp.locals]
  exact .refl _

/-- When everything is declared, every body is still to come. -/
theorem Pending.of_outline {ds : List Deferred} (hp : p.Skeleton) (h : Outline p ds) :
    Pending p ds := by
  have hequality (id : ModelId) : (p.getModel? id).bind (·.equality) = none := by
    cases hm : p.getModel? id with
    | none => rfl
    | some m => exact (hp.overrides hm).1
  have hhashing (id : ModelId) : p.body? (.hashing id) = none := by
    show (p.getModel? id).bind (·.hashing) = none
    cases hm : p.getModel? id with
    | none => rfl
    | some m => exact (hp.overrides hm).2
  have hempty {id : FunctionId} {f : Function} (hf : p.getFunction? id = some f) :
      p.body? (.function id) = some [] := by
    rw [Program.body?, hf, Option.map_some, hp.bodies hf]
  refine ⟨hp.signatures, hp.constants, ?_, h.apart, ?_, ?_, Skeleton.boundOnce hp⟩
  · intro d hd
    obtain ⟨id, block, f, rfl, hf, _⟩ | ⟨id, m, model, rfl, hmodel, hlength⟩ := h.items d hd
    · exact ⟨forall_mem_pair rfl trivial, rfl, hempty hf⟩
    · refine ⟨rfl, ?_, hhashing id, model, hmodel, hlength, hp.nodup hmodel, ?_, ?_⟩
      · rw [Program.body?, hequality]
        rfl
      · intro x hx
        obtain ⟨f, hf, howner⟩ := hp.signatures.methods hmodel x hx
        exact ⟨Option.bind_eq_some_iff.mpr ⟨f, hf, howner⟩, hempty hf⟩
      · intro i hi
        obtain ⟨f, hf, howner⟩ := Option.bind_eq_some_iff.mp hi
        obtain ⟨model', hmodel', hx⟩ := hp.owned hf howner
        cases hmodel.symm.trans hmodel'
        exact hx
  · intro callable body hbody
    cases callable with
    | function id =>
      obtain ⟨f, hf, _⟩ := Option.map_eq_some_iff.mp hbody
      exact .inl (h.functions hf)
    | equality id =>
      rw [Program.body?, hequality] at hbody
      cases hbody
    | hashing id =>
      rw [hhashing] at hbody
      cases hbody
  · intro model id hid
    rw [Program.other?, hequality] at hid
    cases hid

/-- Running all work leaves none. -/
theorem Pending.drains {ds : List Deferred} (h : Pending p ds) (hdrains : Drains p ds p') :
    Pending p' [] := by
  induction hdrains with
  | nil => exact h
  | body hrun _ ih => exact ih (h.runBody hrun)
  | members hrun _ ih => exact ih (h.memberBodies hrun)

theorem Declares.pending {m : Syntax.Module} {ts : Tables} (h : Declares m ts) :
    Pending (declaredProgram m ts) (declaredWork m) :=
  .of_outline h.skeleton h.outline

/-- A lowered program is sound, and no work is left. -/
theorem lower_pending {m : Syntax.Module} {limit : Option Nat} (h : lower m limit = .ok p) :
    Pending p [] := by
  obtain ⟨_, ts, hdeclares, hdrains⟩ := lower_drains h
  exact hdeclares.pending.drains hdrains

end Scribe.Lowering
