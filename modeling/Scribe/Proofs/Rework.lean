import Scribe.Proofs.Reordering

/-!
# The work of a reordered module

Every body of a lowered program is made from a block of its module. The work that a reordered module
leaves is about the same blocks, in scopes that differ by ids only, so it can be run
(`Traced.drains`). The queue is not the same queue: models come in another order, and the locals of
earlier bodies are others. What each piece of work needs does not depend on that (`MadeFrom.runs`).
-/

namespace Scribe.Lowering

open Scribe.Core

/-! ## One body again -/

section Congr

variable {ρ : Renaming} {locals : LocalId → LocalId}

theorem Frame.rename_congr {frame : Frame} (h : ∀ b ∈ frame.bindings, locals b.id = ρ.locals b.id) :
    frame.rename { ρ with locals } = frame.rename ρ := by
  have single {b : Binding} (hb : b ∈ frame.bindings) : b.rename { ρ with locals } = b.rename ρ :=
    congrArg (Binding.mk b.name) (h b hb)
  cases frame with
  | program | model _ | function _ | hashing _ => rfl
  | equality id other => exact congrArg (Frame.equality (ρ.models id)) (single List.mem_cons_self)
  | forEach item => exact congrArg Frame.forEach (single List.mem_cons_self)
  | block bindings => exact congrArg Frame.block (List.map_congr_left fun b hb => single hb)
  | forLoop binding =>
    cases binding with
    | none => rfl
    | some b => exact congrArg (Frame.forLoop ∘ some) (single List.mem_cons_self)

/-- New ids of locals matter only for the bindings of a scope. -/
theorem Scope.rename_congr {scope : Scope}
    (h : ∀ b ∈ scope.bindings, locals b.id = ρ.locals b.id) :
    scope.rename { ρ with locals } = scope.rename ρ := by
  refine List.map_congr_left fun frame hframe => Frame.rename_congr fun b hb => h b ?_
  exact List.mem_flatMap.mpr ⟨frame, hframe, hb⟩

end Congr

/-- New ids for the locals of `q`, and the next free ids of `r` for the locals that come next. -/
def Renaming.extend (ρ : Renaming) (q r : Program) : Renaming :=
  { ρ with locals := fun id =>
      if id.index < q.locals.size then ρ.locals id
      else ⟨r.locals.size + (id.index - q.locals.size)⟩ }

theorem Renaming.extend_next (ρ : Renaming) (q r : Program) (i : ℕ) :
    (Renaming.extend ρ q r).locals ⟨q.locals.size + i⟩ = ⟨r.locals.size + i⟩ := by
  have hnot : ¬q.locals.size + i < q.locals.size := by omega
  simp only [Renaming.extend, if_neg hnot, Nat.add_sub_cancel_left]

theorem Renaming.extend_old {ρ : Renaming} {q : Program} {id : LocalId} {l : Local}
    (h : q.getLocal? id = some l) (r : Program) :
    (Renaming.extend ρ q r).locals id = ρ.locals id :=
  if_pos (Array.getElem?_eq_some_iff.mp h).1

theorem Callable.rename_locals (ρ : Renaming) (locals : LocalId → LocalId) (callable : Callable) :
    callable.rename { ρ with locals } = callable.rename ρ := by
  cases callable <;> rfl

section MadeFrom

variable {p : Program} {callable : Callable} {scope : Scope} {block : Syntax.Block}

/-- The locals that the scope of a body knows were there before its block. -/
theorem MadeFrom.bindings (h : MadeFrom p callable scope block) :
    ∃ q q' body, LowersBody callable block q scope body q' ∧ p.body? callable = some body ∧
      q'.Grows p ∧ q.Grows p ∧ q.stripped = p.stripped ∧
      ∀ b ∈ scope.bindings, ∃ l, q.getLocal? b.id = some l := by
  obtain ⟨q, q', body, hlowers, hbody, hgrows, hstripped, hframes⟩ := h.made
  obtain ⟨c1, hblock, rfl⟩ := hlowers.block
  refine ⟨q, c1.program, body, hlowers, hbody, hgrows, hblock.adds.1.grows.trans hgrows, hstripped,
    ?_⟩
  intro b hb
  obtain ⟨frame, hframe, hb⟩ := List.mem_flatMap.mp hb
  exact ((hframes frame hframe).bindings b hb).2

/-- A block that was lowered once is lowered again in a similar program, and takes as many locals
there. -/
theorem MadeFrom.runs {ρ : Renaming} {r : Program} (h : MadeFrom p callable scope block)
    (hs : Similar ρ p r) (hl : Carries ρ p r (scope.bindings.map (·.id))) :
    ∃ body body' r', p.body? callable = some body ∧
      LowersBody (callable.rename ρ) block r (scope.rename ρ) body' r' ∧
      (blockBinders body').length = (blockBinders body).length := by
  obtain ⟨q, q', body, hlowers, hbody, _, hgrows, hstripped, hbindings⟩ := h.bindings
  have hscope : scope.rename (Renaming.extend ρ q r) = scope.rename ρ := by
    refine Scope.rename_congr fun b hb => ?_
    obtain ⟨l, hl⟩ := hbindings b hb
    exact Renaming.extend_old hl r
  have htracks : Tracks (Renaming.extend ρ q r) ⟨q, scope⟩ r (blockBinders body).length := by
    refine ⟨hs.of_stripped hstripped rfl _, ?_, ?_⟩
    · intro id hid
      obtain ⟨b, hb, rfl⟩ := List.mem_map.mp hid
      obtain ⟨l, hlocal⟩ := hbindings b hb
      obtain ⟨l', hlocal', hcarried⟩ := hl b.id hid
      cases (hgrows.locals hlocal).symm.trans hlocal'
      refine ⟨l, hlocal, ?_⟩
      rw [Renaming.extend_old hlocal]
      exact hcarried
    · intro i _
      exact Renaming.extend_next ρ q r i
  obtain ⟨r', hlowers', _⟩ := hlowers.rename htracks
  rw [hscope, Renaming.extend, Callable.rename_locals] at hlowers'
  refine ⟨body, _, r', hbody, hlowers', ?_⟩
  rw [blockBinders_rename, List.length_map]

end MadeFrom

/-! ## Queues that can be worked off -/

variable {p r : Program} {ρ : Renaming} {m' m : Syntax.Module} {i : ℕ} {f : Syntax.Function}

/-- If each piece of work can be run and leaves work that can be run, the queue gets empty. -/
theorem Drains.of_invariant {I : Program → List Deferred → Prop}
    (hbody : ∀ p scope b rest, I p (⟨scope, .body b⟩ :: rest) →
      ∃ c1, runBody b ⟨p, scope⟩ = .ok () c1 ∧ I c1.program rest)
    (hmembers : ∀ p scope id m rest, I p (⟨scope, .members id m⟩ :: rest) →
      ∃ bodies c1, memberBodies id m ⟨p, scope⟩ = .ok bodies c1 ∧
        I c1.program (rest ++ deferBodies scope bodies)) {q : Queue} (h : I p q.items) :
    ∃ p', Drains p q.items p' := by
  -- the recursion of `drain`: members bring bodies, and bodies bring nothing
  induction q using drain.induct generalizing p with
  | case1 q hq =>
    unfold Queue.dequeue? at hq
    split at hq
    · next hitems =>
      rw [hitems]
      exact ⟨p, .nil⟩
    · cases hq
  | case2 q scope b rest hq ih =>
    have hitems := (Queue.dequeue?_eq_some hq).1
    rw [hitems] at h ⊢
    obtain ⟨c1, hrun, hrest⟩ := hbody p scope b rest.items h
    obtain ⟨p', hp'⟩ := ih hrest
    exact ⟨p', .body hrun hp'⟩
  | case3 q scope id m rest hq ih =>
    have hitems := (Queue.dequeue?_eq_some hq).1
    rw [hitems] at h ⊢
    obtain ⟨bodies, c1, hrun, hrest⟩ := hmembers p scope id m rest.items h
    rw [← Queue.items_enqueueAll] at hrest
    obtain ⟨p', hp'⟩ := ih bodies hrest
    rw [Queue.items_enqueueAll] at hp'
    exact ⟨p', .members hrun hp'⟩

/-- Work of the module `m'` that does again what made a body of `p`. -/
def Deferred.Follows (ρ : Renaming) (p : Program) (m' : Syntax.Module) (r : Program)
    (d : Deferred) : Prop :=
  match d.work with
  | .body b => ∃ locals callable scope, MadeFrom p callable scope b.block ∧
    b.callable = callable.rename ρ ∧ d.scope = scope.rename { ρ with locals } ∧
    Carries { ρ with locals } p r (scope.bindings.map (·.id))
  | .members id md => m'.models[id.index]? = some md

theorem Deferred.Follows.grows {r' : Program} {d : Deferred} (h : d.Follows ρ p m' r)
    (hr : r.Grows r') : d.Follows ρ p m' r' := by
  obtain ⟨scope', work⟩ := d
  cases work with
  | body b =>
    obtain ⟨locals, callable, scope, hmade, hcallable, hscope, hcarries⟩ := h
    exact ⟨locals, callable, scope, hmade, hcallable, hscope, hcarries.grows (.refl p) hr⟩
  | members id md => exact h

/-- A body that follows one of `p` can be run. -/
theorem runBody_of_follows {scope : Scope} {b : Body}
    (h : Deferred.Follows ρ p m' r ⟨scope, .body b⟩) (hs : Similar ρ p r)
    (hempty : r.body? b.callable = some []) : ∃ c1, runBody b ⟨r, scope⟩ = .ok () c1 := by
  obtain ⟨locals, callable, scope', hmade, hcallable, hscope, hcarries⟩ := h
  obtain ⟨_, body, r', _, hlowers, _⟩ := hmade.runs (hs.of_stripped rfl rfl locals) hcarries
  rw [Callable.rename_locals, ← hcallable, ← hscope] at hlowers
  obtain ⟨c1, hblock, rfl⟩ := hlowers.block
  have hstored : c1.program.body? b.callable = some [] :=
    (hblock.adds.1.body? _).trans hempty
  obtain ⟨r', hstore⟩ := Program.exists_store hstored body
  exact ⟨⟨r', scope⟩, runBody_eq_ok.mpr ⟨body, c1.program, hlowers, hstore, rfl⟩⟩

/-! ## What a lowered module is made from -/

/-- The frames around a function. -/
def ownerScope : Option ModelId → Scope
  | none => [.program]
  | some id => [.model id, .program]

/-- Free functions come first among the definitions. -/
theorem getElem?_of_definitions (h : (definitions m)[i]? = some (none, f)) :
    m.functions[i]? = some f := by
  unfold definitions at h
  by_cases hi : i < m.functions.length
  · rw [List.getElem?_append_left (by rwa [List.length_map]), List.getElem?_map,
      Option.map_eq_some_iff] at h
    obtain ⟨g, hg, heq⟩ := h
    cases heq
    exact hg
  · rw [List.getElem?_append_right (by rw [List.length_map]; omega)] at h
    obtain ⟨x, _, hx⟩ := List.mem_flatMap.mp (List.mem_of_getElem? h)
    obtain ⟨g, _, heq⟩ := List.mem_map.mp hx
    cases heq

theorem getElem?_definitions (h : m.functions[i]? = some f) :
    (definitions m)[i]? = some (none, f) := by
  obtain ⟨hlt, _⟩ := List.getElem?_eq_some_iff.mp h
  rw [definitions, List.getElem?_append_left (by rwa [List.length_map]), List.getElem?_map, h]
  rfl

section Traced

variable {m : Syntax.Module} {p : Program} {ts : Tables} (h : Traced m p ts)

include h

theorem Traced.getFunction? {id : FunctionId} {g : Function} (hg : p.getFunction? id = some g) :
    (declaredProgram m ts).getFunction? id = some g.stripped := by
  rw [← h.stripped, getFunction?_stripped, hg]
  rfl

theorem Traced.getModel? {id : ModelId} {model : Model} (hm : p.getModel? id = some model) :
    (declaredProgram m ts).getModel? id = some model.stripped := by
  rw [← h.stripped, getModel?_stripped, hm]
  rfl

/-- A function is made from the definition at its place. -/
theorem Traced.functionMade {id : FunctionId} {owner : Option ModelId} {f : Syntax.Function}
    (hid : (definitions m)[id.index]? = some (owner, f)) :
    FunctionMade p (ownerScope owner) owner f id := by
  rcases mem_definitions.mp (List.mem_of_getElem? hid) with ⟨rfl, hf⟩ | ⟨i, md, hmd, rfl, hf⟩
  · exact h.functions (getElem?_of_definitions hid)
  · obtain ⟨model, hmodel, hmade⟩ := h.models hmd
    obtain ⟨x, _, _, hx⟩ := exists_left_of_forall₂ hmade.methods.flip hf
    -- the model knows a method of that name, and no other function has that owner and name
    obtain ⟨g, hg, hsignature⟩ := hx.signature
    obtain ⟨g', hg', hof⟩ := rel_eq_some_left (h.declares.rel_function id.index) hid
    have hsame : x.function = id := by
      refine h.declares.keyed.functions (h.getFunction? hg) hg' ?_ ?_
      · exact hsignature.owner.trans hof.signature.owner.symm
      · exact hsignature.name.trans hof.signature.name.symm
    rw [hsame] at hx
    exact hx

theorem Traced.exists_function (id : FunctionId) :
    (∃ f, p.getFunction? id = some f) ↔ ∃ x, (definitions m)[id.index]? = some x := by
  constructor
  · rintro ⟨f, hf⟩
    obtain ⟨x, hx, _⟩ := rel_eq_some_right (h.declares.rel_function id.index) (h.getFunction? hf)
    exact ⟨x, hx⟩
  · rintro ⟨⟨owner, f⟩, hx⟩
    obtain ⟨g, hg, _⟩ := (h.functionMade hx).signature
    exact ⟨g, hg⟩

theorem Traced.exists_model (id : ModelId) :
    (∃ model, p.getModel? id = some model) ↔ ∃ md, m.models[id.index]? = some md := by
  constructor
  · rintro ⟨model, hmodel⟩
    exact h.declares.model_of_getModel? (h.getModel? hmodel)
  · rintro ⟨md, hmd⟩
    obtain ⟨model, hmodel, _⟩ := h.models hmd
    exact ⟨model, hmodel⟩

theorem Traced.getModel?_eq_none {id : ModelId} (hmd : m.models[id.index]? = none) :
    p.getModel? id = none := by
  refine Option.eq_none_iff_forall_ne_some.mpr fun model hmodel => ?_
  obtain ⟨md, hsome⟩ := (h.exists_model id).mp ⟨model, hmodel⟩
  cases hmd.symm.trans hsome

/-- Every body is made from a block, in a scope that knows no local but `other`. -/
theorem Traced.exists_made {callable : Callable} {body : Block}
    (hbody : p.body? callable = some body) : ∃ scope block, MadeFrom p callable scope block ∧
      scope.bindings.map (·.id) = (p.other? callable).toList := by
  cases callable with
  | function id =>
    obtain ⟨f, hf, _⟩ := Option.map_eq_some_iff.mp hbody
    obtain ⟨⟨owner, g⟩, hid⟩ := (h.exists_function id).mp ⟨f, hf⟩
    refine ⟨_, _, (h.functionMade hid).body, ?_⟩
    cases owner <;> rfl
  | equality id =>
    obtain ⟨e, he, _⟩ := Option.map_eq_some_iff.mp hbody
    obtain ⟨model, hmodel, _⟩ := Option.bind_eq_some_iff.mp he
    obtain ⟨md, hmd⟩ := (h.exists_model id).mp ⟨model, hmodel⟩
    obtain ⟨hequality, _⟩ := h.overrides hmd
    cases hmd : md.equality with
    | none =>
      rw [hmd] at hequality
      cases hbody.symm.trans hequality
    | some e =>
      rw [hmd] at hequality
      obtain ⟨_, other, hother, _, hmade⟩ := hequality
      refine ⟨_, _, hmade, ?_⟩
      rw [hother]
      rfl
  | hashing id =>
    obtain ⟨model, hmodel, _⟩ := Option.bind_eq_some_iff.mp hbody
    obtain ⟨md, hmd⟩ := (h.exists_model id).mp ⟨model, hmodel⟩
    obtain ⟨_, hhashing⟩ := h.overrides hmd
    cases hmd : md.hashing with
    | none =>
      rw [hmd] at hhashing
      cases hbody.symm.trans hhashing
    | some block =>
      rw [hmd] at hhashing
      exact ⟨_, _, hhashing, rfl⟩

end Traced

/-! ## The same work in another order -/

/-- The body of a method of the model is work about the definition at its place. -/
theorem Declares.mem_methodBodies {m : Syntax.Module} {ts : Tables} (h : Declares m ts) {id : ModelId}
    {md : Syntax.Model} (hmd : m.models[id.index]? = some md) {model : Model}
    (hmodel : (declaredProgram m ts).getModel? id = some model.stripped)
    {x : FramedBody} (hx : x ∈ methodBodies model md) :
    ∃ function f, (definitions m)[function.index]? = some (some id, f) ∧
      x = (.function function, .method function f.body) := by
  obtain ⟨z, hz, rfl⟩ := List.mem_map.mp hx
  obtain ⟨fields, n, hmodel', _, _, hmethods⟩ := h.model hmd
  have hsame := Option.some.inj (hmodel'.symm.trans hmodel)
  have hfunctions : model.methods = methodsFrom n md.methods := (congrArg Model.methods hsame).symm
  rw [← hfunctions] at hmethods
  have hids : List.Forall₂ (fun (f : Syntax.Function) function =>
      ∃ g, (declaredProgram m ts).getFunction? function = some g ∧
        Undefined (bareProgram m.name m.models) (some id) f g) md.methods
      (model.methods.map (·.function)) :=
    List.forall₂_map_right_iff.mpr (hmethods.imp fun _ _ hx => hx.2)
  have hz' : (z.2, z.1) ∈ md.methods.zip (model.methods.map (·.function)) := by
    rw [← List.zip_swap]
    exact List.mem_map.mpr ⟨z, hz, rfl⟩
  obtain ⟨g, hg, hof⟩ := (List.forall₂_iff_zip.mp hids).2 hz'
  obtain ⟨y, hy, hof'⟩ := rel_eq_some_right (h.rel_function z.1.index) hg
  refine ⟨z.1, z.2, ?_, rfl⟩
  -- the method is a definition too, and no other one has its owner and its name
  have hmem : (some id, z.2) ∈ definitions m :=
    mem_definitions.mpr (.inr ⟨id.index, md, hmd, rfl, (List.of_mem_zip hz).2⟩)
  obtain ⟨j, hj⟩ := List.mem_iff_getElem?.mp hmem
  have hplace : z.1.index = j := by
    refine h.distinct.index_eq hy hj ?_ ?_
    · exact hof'.signature.owner.symm.trans hof.signature.owner
    · exact hof'.signature.name.symm.trans hof.signature.name
  rw [hplace]
  exact hj

/-- What is kept while the queue of the reordered module is worked off. -/
structure Reworks (ρ : Renaming) (p : Program) (m' : Syntax.Module) (declared r : Program)
    (ds : List Deferred) : Prop where
  pending : Pending r ds
  stripped : r.stripped = declared
  follows : ∀ d ∈ ds, d.Follows ρ p m' r

section Reordered

variable {ρ : Renaming} {m m' : Syntax.Module} {p : Program} {ts ts' : Tables} (h : Traced m p ts)
  (hplaced : Placed ρ m m') (hreordered : m.Reordered m') (hd' : Declares m' ts')

include h

/-- The equality and the hash of a model of the reordered module follow those of the same model, if
the new `other` is there. -/
theorem Traced.follows_override {id : ModelId} {md md' : Syntax.Model}
    (hmd : m.models[id.index]? = some md) (hmd' : md.Reordered md') {next : LocalId}
    {x : FramedBody} (hx : x ∈ overrideBodies (ρ.models id) next md') {r : Program}
    (hother : ∀ e, md'.equality = some e →
      r.getLocal? next = some ⟨e.other, .model (ρ.models id), .overrideOther⟩) :
    Deferred.Follows ρ p m' r ⟨x.1 :: [.model (ρ.models id), .program], .body x.2⟩ := by
  obtain ⟨model, _, hmade⟩ := h.models hmd
  have hequality := hmade.equality
  have hhashing := hmade.hashing
  rw [← hmd'.equality] at hequality
  rw [← hmd'.hashing] at hhashing
  obtain hx | hx := List.mem_append.mp hx
  · obtain ⟨e, he, rfl⟩ := List.mem_map.mp hx
    have he := Option.mem_toList.mp he
    rw [he] at hequality
    obtain ⟨_, other, _, hlocal, hbody⟩ := hequality
    refine ⟨fun _ => next, .equality id, _, hbody, rfl, rfl, List.forall_mem_singleton.mpr ?_⟩
    exact ⟨_, hlocal, hother e he⟩
  · obtain ⟨block, hb, rfl⟩ := List.mem_map.mp hx
    have hb := Option.mem_toList.mp hb
    rw [hb] at hhashing
    exact ⟨ρ.locals, .hashing id, _, hhashing, rfl, rfl, List.forall_mem_nil _⟩

include hplaced

/-- The body of a function of the reordered module follows that of the same function. -/
theorem Traced.follows_function {function' : FunctionId} {owner' : Option ModelId}
    {f : Syntax.Function} (hid : (definitions m')[function'.index]? = some (owner', f)) {b : Body}
    (hcallable : b.callable = .function function') (hblock : b.block = f.body) (r : Program) :
    Deferred.Follows ρ p m' r ⟨.function function' :: ownerScope owner', .body b⟩ := by
  obtain ⟨function, rfl⟩ := hplaced.bijective.1.surjective function'
  obtain ⟨⟨owner, g⟩, hdefinition, heq⟩ := rel_eq_some_right (hplaced.functions function) hid
  cases heq
  have hmade := (h.functionMade hdefinition).body
  rw [← hblock] at hmade
  refine ⟨ρ.locals, .function function, _, hmade, hcallable, ?_, ?_⟩
  · cases owner <;> rfl
  · cases owner <;> exact List.forall_mem_nil _

include hreordered hd'

theorem Traced.similar {r : Program} (hr : r.stripped = declaredProgram m' ts') :
    Similar ρ p r := by
  have hs := (hplaced.moved h.declares hd' hreordered).similar h.declares.keyed hd'.keyed
  refine hs.of_stripped ?_ ?_ ρ.locals
  · rw [h.stripped, h.declares.skeleton.stripped]
  · rw [hr, hd'.skeleton.stripped]

theorem Reworks.runBody {r : Program} {scope : Scope} {b : Body} {rest : List Deferred}
    (hr : Reworks ρ p m' (declaredProgram m' ts') r (⟨scope, .body b⟩ :: rest)) :
    ∃ c1, Lowering.runBody b ⟨r, scope⟩ = .ok () c1 ∧
      Reworks ρ p m' (declaredProgram m' ts') c1.program rest := by
  have hready : BodyReady r scope b.callable := hr.pending.ready _ List.mem_cons_self
  have hs := h.similar hplaced hreordered hd' hr.stripped
  obtain ⟨c1, hrun⟩ := runBody_of_follows (hr.follows _ List.mem_cons_self) hs hready.empty
  have hgrows := (runBody_updates hrun hready hr.pending.signatures).grows
  refine ⟨c1, hrun, hr.pending.runBody hrun, (runBody_stripped hrun).trans hr.stripped, ?_⟩
  intro d hd
  exact (hr.follows d (List.mem_cons_of_mem _ hd)).grows hgrows

omit hreordered in
theorem Reworks.memberBodies {r : Program} {scope : Scope} {id : ModelId} {md : Syntax.Model}
    {rest : List Deferred}
    (hr : Reworks ρ p m' (declaredProgram m' ts') r (⟨scope, .members id md⟩ :: rest)) :
    ∃ bodies c1, Lowering.memberBodies id md ⟨r, scope⟩ = .ok bodies c1 ∧
      Reworks ρ p m' (declaredProgram m' ts') c1.program (rest ++ deferBodies scope bodies) := by
  obtain ⟨hscope, hready⟩ : scope = [.model id, .program] ∧ MembersReady r id md :=
    hr.pending.ready _ List.mem_cons_self
  obtain ⟨model, hmodel, _⟩ := hready.methods
  have hmd : m'.models[id.index]? = some md := hr.follows _ List.mem_cons_self
  obtain ⟨id0, md0, hmd0, rfl, hmodels⟩ := hplaced.exists_model hmd
  have hvalid : ∀ e, md.equality = some e → checkMemberName e.other = .ok () := by
    intro e he
    obtain ⟨hequality, _⟩ := h.overrides hmd0
    rw [← hmodels.equality, he] at hequality
    exact hequality.1
  have hrun := (memberBodies_eq_ok (c := ⟨r, scope⟩) hmodel).mpr ⟨hvalid, rfl, rfl⟩
  have hgrows := (memberBodies_updates hrun hready).grows
  refine ⟨_, _, hrun, hr.pending.memberBodies hrun,
    (memberBodies_stripped hrun).trans hr.stripped, ?_⟩
  intro d hd
  obtain hd | hd := List.mem_append.mp hd
  · exact (hr.follows d (List.mem_cons_of_mem _ hd)).grows hgrows
  · obtain ⟨x, hx, rfl⟩ := List.mem_map.mp hd
    rw [hscope]
    obtain hx | hx := List.mem_append.mp hx
    · have hstripped :
          (declaredProgram m' ts').getModel? (ρ.models id0) = some model.stripped := by
        rw [← hr.stripped, getModel?_stripped, hmodel]
        rfl
      obtain ⟨function, f, hid, rfl⟩ := hd'.mem_methodBodies hmd hstripped hx
      exact h.follows_function hplaced hid rfl rfl _
    · refine h.follows_override hmd0 hmodels hx ?_
      intro e he
      simp only [he]
      exact getLocal?_withLocal_self r _

/-- The work of the reordered module can be run. -/
theorem Traced.drains : ∃ p', Drains (declaredProgram m' ts') (declaredWork m') p' := by
  refine Drains.of_invariant (q := ⟨declaredWork m', 0⟩)
    (I := Reworks ρ p m' (declaredProgram m' ts'))
    (fun _ _ _ _ hr => hr.runBody h hplaced hreordered hd')
    (fun _ _ _ _ _ hr => hr.memberBodies h hplaced hd') ?_
  refine ⟨hd'.pending, hd'.skeleton.stripped, ?_⟩
  intro d hd
  obtain hd | hd := List.mem_append.mp hd
  · obtain ⟨i, f, hf, rfl⟩ := exists_of_mem_functionWork hd
    rw [Nat.zero_add]
    exact h.follows_function hplaced (getElem?_definitions hf) rfl rfl _
  · obtain ⟨x, hx, rfl⟩ := List.mem_map.mp hd
    exact mem_numbered.mp hx

end Reordered

end Scribe.Lowering
