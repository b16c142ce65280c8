import Scribe.Proofs.Rework
import Scribe.Proofs.WellFormed

/-!
# The order of definitions does not matter

Definitions may stand in any order. If the free functions, the models and the methods of the models
of a module change places, lowering succeeds if it did before, and the two programs are equal up to
the ids of functions, models and locals (`lower_reordered`).

The bodies of both programs are made from the same blocks. The locals that a body takes are numbered
on from those before it, so they are at the same places of its list of binders. Each local is bound
once, so the pairs of all bodies together are a renaming.
-/

namespace Scribe.Core

/-! ## Callables and what they bind -/

namespace Program

/-- The callables that a program can have: its functions, and the equality and the hash of each
model. -/
def callables (p : Program) : List Callable :=
  (List.range p.functions.size).map (fun i => .function ⟨i⟩) ++
    (List.range p.models.size).flatMap fun i => [.equality ⟨i⟩, .hashing ⟨i⟩]

/-- The program has the definition that a callable belongs to. -/
def Has (p : Program) : Callable → Prop
  | .function id => ∃ f, p.getFunction? id = some f
  | .equality id | .hashing id => ∃ m, p.getModel? id = some m

/-- The locals that a callable binds. -/
def bindersOf (p : Program) (callable : Callable) : List LocalId :=
  (p.other? callable).toList ++ (p.body? callable).elim [] blockBinders

theorem lt_size_iff {α : Type} (xs : Array α) (i : ℕ) : i < xs.size ↔ ∃ x, xs[i]? = some x := by
  constructor
  · intro hi
    exact ⟨xs[i], Array.getElem?_eq_getElem hi⟩
  · rintro ⟨x, hx⟩
    exact (Array.getElem?_eq_some_iff.mp hx).1

theorem mem_callables {p : Program} {callable : Callable} :
    callable ∈ p.callables ↔ p.Has callable := by
  unfold callables
  rw [List.mem_append, List.mem_map, List.mem_flatMap]
  constructor
  · rintro (⟨i, hi, rfl⟩ | ⟨i, hi, hmem⟩)
    · exact (lt_size_iff _ _).mp (List.mem_range.mp hi)
    · have hmodel := (lt_size_iff _ _).mp (List.mem_range.mp hi)
      rcases List.mem_cons.mp hmem with rfl | hmem
      · exact hmodel
      · cases List.mem_singleton.mp hmem
        exact hmodel
  · intro h
    cases callable with
    | function id =>
      exact .inl ⟨id.index, List.mem_range.mpr ((lt_size_iff _ _).mpr h), rfl⟩
    | equality id =>
      exact .inr ⟨id.index, List.mem_range.mpr ((lt_size_iff _ _).mpr h), List.mem_cons_self⟩
    | hashing id =>
      refine .inr ⟨id.index, List.mem_range.mpr ((lt_size_iff _ _).mpr h), ?_⟩
      exact List.mem_cons_of_mem _ List.mem_cons_self

theorem nodup_callables (p : Program) : p.callables.Nodup := by
  refine List.nodup_append.mpr ⟨?_, ?_, ?_⟩
  · exact List.nodup_range.map fun i j h => FunctionId.mk.inj (Callable.function.inj h)
  · refine List.nodup_flatMap.mpr ⟨fun i _ => by simp, List.nodup_range.imp ?_⟩
    intro i j hne callable hi hj
    simp only [List.mem_cons, List.not_mem_nil, or_false] at hi hj
    rcases hi with rfl | rfl <;> rcases hj with hj | hj <;> cases hj <;> exact hne rfl
  · rintro _ hf _ hm rfl
    obtain ⟨i, _, rfl⟩ := List.mem_map.mp hf
    obtain ⟨j, _, hj⟩ := List.mem_flatMap.mp hm
    simp at hj

/-- A table entry by entry. -/
theorem flatMap_toList {α β : Type} (xs : Array α) (f : α → List β) :
    xs.toList.flatMap f = (List.range xs.size).flatMap fun i => (xs[i]?).elim [] f := by
  have hsome : xs.toList.map some = (List.range xs.size).map (xs[·]?) := by
    refine List.ext_getElem (by simp) fun i hi _ => ?_
    simp
  calc xs.toList.flatMap f = (xs.toList.map some).flatMap (·.elim [] f) := by
        rw [List.flatMap_map]
        rfl
    _ = _ := by rw [hsome, List.flatMap_map]

theorem binders_eq (p : Program) : p.binders = p.callables.flatMap p.bindersOf := by
  unfold binders callables
  rw [List.flatMap_append, flatMap_toList p.functions, flatMap_toList p.models, List.flatMap_map,
    List.flatMap_assoc]
  congr 1
  · refine List.flatMap_congr fun i _ => ?_
    rw [bindersOf, body?, getFunction?]
    cases p.functions[i]? <;> rfl
  · refine List.flatMap_congr fun i _ => ?_
    simp only [List.flatMap_cons, List.flatMap_nil, List.append_nil]
    rw [bindersOf, bindersOf, body?, body?, other?, other?, getModel?]
    cases p.models[i]? with
    | none => rfl
    | some m =>
      rw [Option.elim_some, modelBinders, Option.bind_some, Option.bind_some]
      cases m.equality <;> cases m.hashing <;> rfl

end Program

end Scribe.Core

namespace Scribe.Lowering

open Scribe.Core

/-! ## Bodies made from the same block -/

theorem Frame.bindings_rename (ρ : Renaming) (frame : Frame) :
    (frame.rename ρ).bindings = frame.bindings.map (·.rename ρ) := by
  cases frame with
  | forLoop binding => cases binding <;> rfl
  | _ => rfl

theorem Scope.bindings_rename (ρ : Renaming) (scope : Scope) :
    (scope.rename ρ).bindings = scope.bindings.map (·.rename ρ) := by
  rw [Scope.bindings, Scope.bindings, Scope.rename, List.flatMap_map, List.map_flatMap]
  exact List.flatMap_congr fun frame _ => Frame.bindings_rename ρ frame

theorem AddsLocals.getElem? {p p' : Program} {ids : List LocalId} (h : AddsLocals p p' ids) {i : ℕ}
    (hi : i < ids.length) : ids[i]? = some ⟨p.locals.size + i⟩ := by
  rw [h.ids, List.getElem?_map, List.getElem?_range' hi, Nat.one_mul]
  rfl

/-- A callable is made from the same block in both programs, in scopes that differ by ids. -/
structure MadeAlike (ρ : Renaming) (p p' : Program) (callable : Callable) (scope : Scope)
    (block : Syntax.Block) : Prop where
  made : MadeFrom p callable scope block
  made' : MadeFrom p' (callable.rename ρ) (scope.rename ρ) block
  carries : Carries ρ p p' (scope.bindings.map (·.id))
  bindings : scope.bindings.map (·.id) = (p.other? callable).toList
  other : p'.other? (callable.rename ρ) = (p.other? callable).map ρ.locals

section Made

variable {ρ : Renaming} {p p' : Program}

theorem FunctionMade.alike {owner : Option ModelId} {f f' : Syntax.Function} {id : FunctionId}
    (h : FunctionMade p (ownerScope owner) owner f id)
    (h' : FunctionMade p' (ownerScope (owner.map ρ.models)) (owner.map ρ.models) f'
      (ρ.functions id)) (hbody : f'.body = f.body) :
    MadeAlike ρ p p' (.function id) (.function id :: ownerScope owner) f.body := by
  have hmade := h'.body
  rw [hbody] at hmade
  refine ⟨h.body, ?_, ?_, ?_, rfl⟩
  · cases owner <;> exact hmade
  · cases owner <;> exact List.forall_mem_nil _
  · cases owner <;> rfl

theorem EqualityMade.alike {id : ModelId} {e : Syntax.Equality} (h : EqualityMade p id (some e))
    (h' : EqualityMade p' (ρ.models id) (some e)) :
    ∃ locals scope, MadeAlike { ρ with locals } p p' (.equality id) scope e.body := by
  obtain ⟨_, other, hother, hlocal, hbody⟩ := h
  obtain ⟨_, other', hother', hlocal', hbody'⟩ := h'
  refine ⟨fun _ => other', _, hbody, hbody', ?_, ?_, ?_⟩
  · exact List.forall_mem_singleton.mpr ⟨_, hlocal, hlocal'⟩
  · rw [hother]
    rfl
  · rw [hother]
    exact hother'

theorem HashingMade.alike {id : ModelId} {block : Syntax.Block} (h : HashingMade p id (some block))
    (h' : HashingMade p' (ρ.models id) (some block)) :
    MadeAlike ρ p p' (.hashing id) [.hashing id, .model id, .program] block :=
  ⟨h, h', List.forall_mem_nil _, rfl, rfl⟩

end Made

/-- The locals of a callable in two programs, paired by their places. -/
def localPairs (ρ : Renaming) (p p' : Program) (callable : Callable) : List (LocalId × LocalId) :=
  (p.bindersOf callable).zip (p'.bindersOf (callable.rename ρ))

section MadeAlike

variable {ρ : Renaming} {p p' : Program} {callable : Callable} {scope : Scope}
  {block : Syntax.Block} (h : MadeAlike ρ p p' callable scope block) (hs : Similar ρ p p')

include h

/-- Only the new id of `other` matters. -/
theorem MadeAlike.congr {locals : LocalId → LocalId}
    (hother : ∀ id ∈ p.other? callable, locals id = ρ.locals id) :
    MadeAlike { ρ with locals } p p' callable scope block := by
  have hmem {id : LocalId} (hid : id ∈ scope.bindings.map (·.id)) : locals id = ρ.locals id := by
    rw [h.bindings] at hid
    exact hother id (Option.mem_toList.mp hid)
  refine ⟨h.made, ?_, ?_, h.bindings, ?_⟩
  · rw [Callable.rename_locals, Scope.rename_congr fun b hb => hmem (List.mem_map.mpr ⟨b, hb, rfl⟩)]
    exact h.made'
  · intro id hid
    obtain ⟨l, hl, hl'⟩ := h.carries id hid
    refine ⟨l, hl, ?_⟩
    rw [show ({ ρ with locals } : Renaming).locals id = ρ.locals id from hmem hid]
    exact hl'
  · rw [Callable.rename_locals, h.other]
    exact Option.map_congr fun id hid => (hother id hid).symm

/-- The scope of the second body knows the same locals by the time when it was lowered. -/
theorem MadeAlike.carries_to {q q' : Program} (hq : q.Grows p) (hq' : q'.Grows p')
    (hknown : ∀ b ∈ scope.bindings, ∃ l, q.getLocal? b.id = some l)
    (hknown' : ∀ b ∈ (scope.rename ρ).bindings, ∃ l, q'.getLocal? b.id = some l) :
    Carries ρ q q' (scope.bindings.map (·.id)) := by
  intro id hid
  obtain ⟨l, hl, hl'⟩ := h.carries id hid
  obtain ⟨b, hb, rfl⟩ := List.mem_map.mp hid
  obtain ⟨l1, hl1⟩ := hknown b hb
  have hb' : b.rename ρ ∈ (scope.rename ρ).bindings := by
    rw [Scope.bindings_rename]
    exact List.mem_map.mpr ⟨b, hb, rfl⟩
  obtain ⟨l2, hl2⟩ := hknown' _ hb'
  cases hl.symm.trans (hq.locals hl1)
  cases hl'.symm.trans (hq'.locals hl2)
  exact ⟨l, hl1, hl2⟩

include hs

theorem MadeAlike.length :
    (p'.bindersOf (callable.rename ρ)).length = (p.bindersOf callable).length := by
  obtain ⟨q, q1, body', hlowers, hbody', hgrows1, hgrows, hstripped, hknown⟩ := h.made'.bindings
  have hcarries : Carries ρ p q (scope.bindings.map (·.id)) := by
    refine h.carries_to (.refl p) hgrows ?_ hknown
    intro b hb
    obtain ⟨l, hl, _⟩ := h.carries b.id (List.mem_map.mpr ⟨b, hb, rfl⟩)
    exact ⟨l, hl⟩
  obtain ⟨body, body1, r, hbody, hlowers1, hlength⟩ :=
    h.made.runs (hs.of_stripped rfl hstripped ρ.locals) hcarries
  obtain ⟨rfl, _⟩ := hlowers1.unique hlowers
  rw [Program.bindersOf, Program.bindersOf, hbody, hbody', h.other, List.length_append,
    List.length_append, Option.elim_some, Option.elim_some, hlength]
  cases p.other? callable <;> rfl

variable (haligned : ∀ x ∈ localPairs ρ p p' callable, ρ.locals x.1 = x.2)

include haligned

/-- If the locals of both bodies are paired, the bodies are the same under new ids. -/
theorem MadeAlike.body : p'.body? (callable.rename ρ) = (p.body? callable).map (renameBlock ρ) ∧
    Carries ρ p p' (p.bindersOf callable) := by
  have hlength := h.length hs
  obtain ⟨q, q1, body, hlowers, hbody, hgrows1, hgrows, hstripped, hknown⟩ := h.made.bindings
  obtain ⟨q', q1', body', hlowers', hbody', hgrows1', hgrows', hstripped', hknown'⟩ :=
    h.made'.bindings
  obtain ⟨c1, hblock, rfl⟩ := hlowers.block
  obtain ⟨c1', hblock', rfl⟩ := hlowers'.block
  have hothers : (p.other? callable).toList.length =
      (p'.other? (callable.rename ρ)).toList.length := by
    rw [h.other]
    cases p.other? callable <;> rfl
  unfold localPairs at haligned
  unfold Program.bindersOf at hlength haligned ⊢
  rw [hbody, hbody', Option.elim_some, Option.elim_some] at hlength haligned
  rw [List.zip_append hothers] at haligned
  rw [List.length_append, List.length_append, hothers] at hlength
  have htracks : Tracks ρ ⟨q, scope⟩ q' (blockBinders body).length := by
    refine ⟨hs.of_stripped hstripped hstripped' ρ.locals,
      h.carries_to hgrows hgrows' hknown hknown', ?_⟩
    intro i hi
    have hget := hblock.adds.1.getElem? hi
    have hget' := hblock'.adds.1.getElem? (i := i) (by omega)
    refine haligned (_, _) (List.mem_append_right _ (List.mem_of_getElem? (i := i) ?_))
    exact List.getElem?_zip_eq_some.mpr ⟨hget, hget'⟩
  obtain ⟨q2, hlowers2, hcarries⟩ := hlowers.rename htracks
  obtain ⟨rfl, rfl⟩ := hlowers2.unique hlowers'
  refine ⟨by rw [hbody, hbody', Option.map_some], ?_⟩
  rw [hbody, ← h.bindings]
  exact h.carries.append (hcarries.grows hgrows1 hgrows1')

end MadeAlike

/-! ## All bodies -/

variable {ρ : Renaming} {callable : Callable}

theorem Callable.rename_bijective (hf : Function.Bijective ρ.functions)
    (hm : Function.Bijective ρ.models) : Function.Bijective (Callable.rename ρ) := by
  constructor
  · intro c c' heq
    cases c with
    | function id =>
      cases c' with
      | function id' => exact congrArg _ (hf.injective (Callable.function.inj heq))
      | equality _ | hashing _ => cases heq
    | equality id =>
      cases c' with
      | equality id' => exact congrArg _ (hm.injective (Callable.equality.inj heq))
      | function _ | hashing _ => cases heq
    | hashing id =>
      cases c' with
      | hashing id' => exact congrArg _ (hm.injective (Callable.hashing.inj heq))
      | function _ | equality _ => cases heq
  · intro c'
    cases c' with
    | function id =>
      obtain ⟨id, rfl⟩ := hf.surjective id
      exact ⟨.function id, rfl⟩
    | equality id =>
      obtain ⟨id, rfl⟩ := hm.surjective id
      exact ⟨.equality id, rfl⟩
    | hashing id =>
      obtain ⟨id, rfl⟩ := hm.surjective id
      exact ⟨.hashing id, rfl⟩

theorem exists_some_iff {α β : Type} {R : α → β → Prop} {x : Option α} {y : Option β}
    (h : Option.Rel R x y) : (∃ a, x = some a) ↔ ∃ b, y = some b := by
  constructor
  · rintro ⟨a, ha⟩
    obtain ⟨b, hb, _⟩ := rel_eq_some_left h ha
    exact ⟨b, hb⟩
  · rintro ⟨b, hb⟩
    obtain ⟨a, ha, _⟩ := rel_eq_some_right h hb
    exact ⟨a, ha⟩

section Pairs

variable {ρ : Renaming} {m m' : Syntax.Module} {p p' : Program} {ts ts' : Tables}
  (h : Traced m p ts) (h' : Traced m' p' ts') (hplaced : Placed ρ m m')

include h h' hplaced

theorem Traced.has_rename (callable : Callable) :
    p'.Has (callable.rename ρ) ↔ p.Has callable := by
  have hmodel (id : ModelId) :
      (∃ model, p'.getModel? (ρ.models id) = some model) ↔ ∃ model, p.getModel? id = some model :=
    (h'.exists_model _).trans ((exists_some_iff (hplaced.models id)).symm.trans
      (h.exists_model id).symm)
  cases callable with
  | function id =>
    exact (h'.exists_function _).trans ((exists_some_iff (hplaced.functions id)).symm.trans
      (h.exists_function id).symm)
  | equality id | hashing id => exact hmodel id

theorem Traced.callables_perm : (p.callables.map (·.rename ρ)).Perm p'.callables := by
  have hbijective := Callable.rename_bijective hplaced.bijective.1 hplaced.bijective.2
  refine (List.perm_ext_iff_of_nodup (p.nodup_callables.map hbijective.injective)
    p'.nodup_callables).mpr fun callable' => ?_
  obtain ⟨callable, rfl⟩ := hbijective.surjective callable'
  rw [List.mem_map_of_injective hbijective.injective, Program.mem_callables, Program.mem_callables,
    h.has_rename h' hplaced]

/-- A callable has no body in both programs, or is made from the same block in both. -/
theorem Traced.alike {callable : Callable} (hc : p.Has callable) :
    (p.body? callable = none ∧ p'.body? (callable.rename ρ) = none) ∨
      ∃ locals scope block, MadeAlike { ρ with locals } p p' callable scope block := by
  cases callable with
  | function id =>
    obtain ⟨⟨owner, f⟩, hx⟩ := (h.exists_function id).mp hc
    obtain ⟨y, hy, rfl⟩ := rel_eq_some_left (hplaced.functions id) hx
    exact .inr ⟨ρ.locals, _, f.body, (h.functionMade hx).alike (h'.functionMade hy) rfl⟩
  | equality id =>
    obtain ⟨md, hmd⟩ := (h.exists_model id).mp hc
    obtain ⟨md', hmd', hreordered⟩ := rel_eq_some_left (hplaced.models id) hmd
    obtain ⟨hequality, _⟩ := h.overrides hmd
    obtain ⟨hequality', _⟩ := h'.overrides hmd'
    rw [hreordered.equality] at hequality'
    cases he : md.equality with
    | none =>
      rw [he] at hequality hequality'
      exact .inl ⟨hequality, hequality'⟩
    | some e =>
      rw [he] at hequality hequality'
      obtain ⟨locals, scope, halike⟩ := hequality.alike hequality'
      exact .inr ⟨locals, scope, e.body, halike⟩
  | hashing id =>
    obtain ⟨md, hmd⟩ := (h.exists_model id).mp hc
    obtain ⟨md', hmd', hreordered⟩ := rel_eq_some_left (hplaced.models id) hmd
    obtain ⟨_, hhashing⟩ := h.overrides hmd
    obtain ⟨_, hhashing'⟩ := h'.overrides hmd'
    rw [hreordered.hashing] at hhashing'
    cases hb : md.hashing with
    | none =>
      rw [hb] at hhashing hhashing'
      exact .inl ⟨hhashing, hhashing'⟩
    | some block =>
      rw [hb] at hhashing hhashing'
      exact .inr ⟨ρ.locals, _, block, hhashing.alike hhashing'⟩

end Pairs

/-! ## New ids for locals -/

def moveLocal (e : Equiv.Perm ℕ) (id : LocalId) : LocalId :=
  ⟨e id.index⟩

theorem moveLocal_bijective (e : Equiv.Perm ℕ) : Function.Bijective (moveLocal e) := by
  constructor
  · rintro ⟨i⟩ ⟨j⟩ h
    exact congrArg LocalId.mk (e.injective (LocalId.mk.inj h))
  · rintro ⟨i⟩
    exact ⟨⟨e.symm i⟩, congrArg LocalId.mk (e.apply_symm_apply i)⟩

variable {n : ℕ} {id : LocalId} {p : Program}

theorem id_of_getElem?_range {i : ℕ} (h : ((List.range n).map LocalId.mk)[i]? = some id) :
    id = ⟨i⟩ := by
  rw [List.getElem?_map, Option.map_eq_some_iff] at h
  obtain ⟨j, hj, rfl⟩ := h
  obtain ⟨hlt, hget⟩ := List.getElem?_eq_some_iff.mp hj
  rw [List.getElem_range] at hget
  rw [hget]

theorem BoundOnce.mem_binders (h : BoundOnce p) :
    id ∈ p.binders ↔ ∃ l, p.getLocal? id = some l := by
  rw [h.mem_iff, List.mem_map]
  refine Iff.trans ?_ (Program.lt_size_iff p.locals id.index)
  constructor
  · rintro ⟨i, hi, rfl⟩
    exact List.mem_range.mp hi
  · intro hi
    exact ⟨id.index, List.mem_range.mpr hi, rfl⟩

/-- Pairs in which every id stands once on each side are a renaming. -/
theorem exists_matching {pairs : List (LocalId × LocalId)} {n' : ℕ}
    (h : (pairs.map (·.1)).Perm ((List.range n).map LocalId.mk))
    (h' : (pairs.map (·.2)).Perm ((List.range n').map LocalId.mk)) :
    ∃ locals, Function.Bijective locals ∧ ∀ x ∈ pairs, locals x.1 = x.2 := by
  obtain ⟨e, he⟩ := exists_perm_getElem? h
  obtain ⟨e', he'⟩ := exists_perm_getElem? h'
  refine ⟨moveLocal (e.symm.trans e'), moveLocal_bijective _, ?_⟩
  intro x hx
  obtain ⟨i, hi⟩ := List.mem_iff_getElem?.mp hx
  have hfst : ((List.range n).map LocalId.mk)[e i]? = some x.1 := by
    rw [he, List.getElem?_map, hi]
    rfl
  have hsnd : ((List.range n').map LocalId.mk)[e' i]? = some x.2 := by
    rw [he', List.getElem?_map, hi]
    rfl
  rw [id_of_getElem?_range hfst, id_of_getElem?_range hsnd]
  exact congrArg (fun j => LocalId.mk (e' j)) (e.symm_apply_apply i)

theorem other?_of_none (h : p.body? callable = none) : p.other? callable = none := by
  cases callable with
  | equality id =>
    rw [Program.body?, Option.map_eq_none_iff] at h
    rw [Program.other?, h]
    rfl
  | function _ | hashing _ => rfl

theorem bindersOf_of_none (h : p.body? callable = none) : p.bindersOf callable = [] := by
  rw [Program.bindersOf, h, other?_of_none h]
  rfl

/-- The body of a callable and the locals that it binds are the same under new ids. -/
structure BodyRenamed (ρ : Renaming) (p q : Program) (callable : Callable) : Prop where
  body : q.body? (callable.rename ρ) = (p.body? callable).map (renameBlock ρ)
  other : q.other? (callable.rename ρ) = (p.other? callable).map ρ.locals
  carries : Carries ρ p q (p.bindersOf callable)

/-- A callable that is made from the same block has the same body, under ids that pair its locals. -/
theorem MadeAlike.renamed {locals0 locals : LocalId → LocalId} {p' : Program} {scope : Scope}
    {block : Syntax.Block} (h : MadeAlike { ρ with locals := locals0 } p p' callable scope block)
    (hs : Similar ρ p p') (haligned : ∀ x ∈ localPairs ρ p p' callable, locals x.1 = x.2) :
    BodyRenamed { ρ with locals } p p' callable := by
  have hlocals : ∀ id ∈ p.other? callable, locals id = locals0 id := by
    intro id hid
    have hother := h.other
    rw [Callable.rename_locals] at hother
    refine haligned (id, locals0 id) ?_
    rw [localPairs, Program.bindersOf, Program.bindersOf, hother, Option.mem_def.mp hid]
    exact List.mem_cons_self
  have hrenamed := h.congr hlocals
  have hpairs : ∀ x ∈ localPairs { ρ with locals } p p' callable, locals x.1 = x.2 := by
    rw [localPairs, Callable.rename_locals]
    exact haligned
  have hbody := hrenamed.body (hs.of_stripped rfl rfl locals) hpairs
  exact ⟨hbody.1, hrenamed.other, hbody.2⟩

theorem BodyRenamed.bindersOf {q : Program} (h : BodyRenamed ρ p q callable) :
    q.bindersOf (callable.rename ρ) = (p.bindersOf callable).map ρ.locals := by
  rw [Program.bindersOf, Program.bindersOf, h.body, h.other, List.map_append]
  congr 1
  · cases p.other? callable <;> rfl
  · cases p.body? callable with
    | none => rfl
    | some body => exact blockBinders_rename ρ body

section Pairs

variable {ρ : Renaming} {m m' : Syntax.Module} {p p' : Program} {ts ts' : Tables}
  (h : Traced m p ts) (h' : Traced m' p' ts') (hplaced : Placed ρ m m') (hs : Similar ρ p p')

include h h' hplaced hs

theorem Traced.length_bindersOf {callable : Callable} (hc : p.Has callable) :
    (p'.bindersOf (callable.rename ρ)).length = (p.bindersOf callable).length := by
  obtain ⟨hnone, hnone'⟩ | ⟨locals, _, _, halike⟩ := h.alike h' hplaced hc
  · rw [bindersOf_of_none hnone, bindersOf_of_none hnone']
  · have hlength := halike.length (hs.of_stripped rfl rfl locals)
    rwa [Callable.rename_locals] at hlength

/-- There are new ids for the locals that fit all bodies. -/
theorem Traced.exists_locals (hbound : BoundOnce p) (hbound' : BoundOnce p') :
    ∃ locals, Function.Bijective locals ∧
      ∀ callable, p.Has callable → ∀ x ∈ localPairs ρ p p' callable, locals x.1 = x.2 := by
  have hlength : ∀ callable ∈ p.callables,
      (p'.bindersOf (callable.rename ρ)).length = (p.bindersOf callable).length :=
    fun callable hc => h.length_bindersOf h' hplaced hs (Program.mem_callables.mp hc)
  have hfst : (p.callables.flatMap (localPairs ρ p p')).map (·.1) = p.binders := by
    rw [List.map_flatMap, Program.binders_eq]
    exact List.flatMap_congr fun callable hc =>
      List.map_fst_zip (Nat.le_of_eq (hlength callable hc).symm)
  have hsnd : ((p.callables.flatMap (localPairs ρ p p')).map (·.2)).Perm p'.binders := by
    have hzip : (p.callables.flatMap fun callable => (localPairs ρ p p' callable).map (·.2)) =
        (p.callables.map (·.rename ρ)).flatMap p'.bindersOf := by
      rw [List.flatMap_map]
      exact List.flatMap_congr fun callable hc =>
        List.map_snd_zip (Nat.le_of_eq (hlength callable hc))
    rw [List.map_flatMap, hzip, Program.binders_eq]
    exact (h.callables_perm h' hplaced).flatMap_right _
  rw [BoundOnce, ← hfst] at hbound
  obtain ⟨locals, hbijective, hpairs⟩ := exists_matching hbound (hsnd.trans hbound')
  refine ⟨locals, hbijective, fun callable hc x hx => hpairs x ?_⟩
  exact List.mem_flatMap.mpr ⟨callable, Program.mem_callables.mpr hc, hx⟩

variable {locals : LocalId → LocalId}
  (haligned : ∀ callable, p.Has callable → ∀ x ∈ localPairs ρ p p' callable, locals x.1 = x.2)

include haligned

/-- With these ids, all bodies are the same. -/
theorem Traced.body_rename {callable : Callable} (hc : p.Has callable) :
    BodyRenamed { ρ with locals } p p' callable := by
  have haligned := haligned callable hc
  obtain ⟨hnone, hnone'⟩ | ⟨locals0, scope, block, halike⟩ := h.alike h' hplaced hc
  · have hother := other?_of_none hnone
    have hother' := other?_of_none hnone'
    rw [← Callable.rename_locals ρ locals] at hnone' hother'
    refine ⟨by rw [hnone, hnone', Option.map_none], by rw [hother, hother', Option.map_none], ?_⟩
    rw [bindersOf_of_none hnone]
    exact List.forall_mem_nil _
  · exact halike.renamed hs haligned

end Pairs

end Scribe.Lowering

namespace Scribe.Core

open Scribe.Lowering

/-! ## Programs up to ids -/

/-- The same model under new ids, with its methods in any order. -/
structure Model.Renamed (ρ : Renaming) (m n : Model) : Prop where
  name : n.name = m.name
  fields : n.fields = m.fields.map (·.rename ρ.models)
  methods : (m.methods.map (·.rename ρ)).Perm n.methods
  field? : ∀ name, n.field? name = m.field? name
  method? : ∀ name, n.method? name = (m.method? name).map ρ.functions
  equality : n.equality = m.equality.map (·.rename ρ)
  hashing : n.hashing = m.hashing.map (renameBlock ρ)

/-- The same program under new ids. Every table holds the same entries, and names stand for the same
definitions. -/
structure Program.Renamed (ρ : Renaming) (p q : Program) : Prop where
  bijective : Function.Bijective ρ.functions ∧ Function.Bijective ρ.models ∧
    Function.Bijective ρ.locals
  name : q.name = p.name
  constants : q.constants = p.constants.map (·.rename ρ)
  functions : ∀ id, q.getFunction? (ρ.functions id) = (p.getFunction? id).map (·.rename ρ)
  models : ∀ id, Option.Rel (Model.Renamed ρ) (p.getModel? id) (q.getModel? (ρ.models id))
  locals : ∀ id, q.getLocal? (ρ.locals id) = (p.getLocal? id).map (·.rename ρ.models)
  constant? : ∀ name, q.constant? name = p.constant? name
  function? : ∀ name, q.function? name = (p.function? name).map ρ.functions
  model? : ∀ name, q.model? name = (p.model? name).map ρ.models

theorem Model.methods_perm {ρ : Renaming} {m n : Model} (hf : Function.Bijective ρ.functions)
    (hm : (m.methods.map (·.name)).Nodup) (hn : (n.methods.map (·.name)).Nodup)
    (hm' : m.methodMap.Indexes fun name function => ⟨name, function⟩ ∈ m.methods)
    (hn' : n.methodMap.Indexes fun name function => ⟨name, function⟩ ∈ n.methods)
    (hmethod : ∀ name, n.method? name = (m.method? name).map ρ.functions) :
    (m.methods.map (·.rename ρ)).Perm n.methods := by
  have hinjective : Function.Injective (Method.rename ρ) := by
    rintro ⟨name, function⟩ ⟨name', function'⟩ heq
    obtain ⟨hname, hfunction⟩ := Method.mk.inj heq
    exact congrArg₂ Method.mk hname (hf.injective hfunction)
  refine (List.perm_ext_iff_of_nodup ((List.Nodup.of_map _ hm).map hinjective)
    (List.Nodup.of_map _ hn)).mpr ?_
  rintro ⟨name, function'⟩
  obtain ⟨function, rfl⟩ := hf.surjective function'
  have hmem := List.mem_map_of_injective hinjective (a := ⟨name, function⟩) (l := m.methods)
  refine hmem.trans (hm'.lookup_eq_some.symm.trans ?_)
  rw [← hn'.lookup_eq_some, ← Model.method?, ← Model.method?, hmethod]
  exact ((Option.map_injective hf.injective).eq_iff (b := some function)).symm

theorem Equality.eq_rename {ρ : Renaming} {x y : Option Equality}
    (hbody : y.map (·.body) = (x.map (·.body)).map (renameBlock ρ))
    (hother : y.map (·.other) = (x.map (·.other)).map ρ.locals) : y = x.map (·.rename ρ) := by
  cases x with
  | none => exact Option.map_eq_none_iff.mp hbody
  | some e =>
    obtain ⟨⟨other, body⟩, rfl, _⟩ := Option.map_eq_some_iff.mp hbody
    have hother : other = ρ.locals e.other := Option.some.inj hother
    have hbody : body = renameBlock ρ e.body := Option.some.inj hbody
    rw [hother, hbody]
    rfl

section Renamed

variable {ρ : Renaming} {p q : Program} (hmoved : Moved ρ p.stripped q.stripped)
  (hbodies : ∀ callable, p.Has callable → BodyRenamed ρ p q callable)

include hmoved hbodies

theorem getFunction?_rename (id : FunctionId) :
    q.getFunction? (ρ.functions id) = (p.getFunction? id).map (·.rename ρ) := by
  have hrel := hmoved.functions id
  rw [getFunction?_stripped, getFunction?_stripped] at hrel
  cases hf : p.getFunction? id with
  | none =>
    rw [hf, Option.map_none] at hrel
    cases hg : q.getFunction? (ρ.functions id) with
    | none => rfl
    | some g =>
      rw [hg] at hrel
      cases hrel
  | some f =>
    rw [hf, Option.map_some] at hrel
    obtain ⟨g', hg', hsignature, howner⟩ := rel_eq_some_left hrel rfl
    obtain ⟨g, hg, rfl⟩ := Option.map_eq_some_iff.mp hg'
    have hbody := (hbodies (.function id) ⟨f, hf⟩).body
    rw [Callable.rename, Program.body?, Program.body?, hf, hg, Option.map_some, Option.map_some,
      Option.map_some] at hbody
    rw [hg, Option.map_some]
    cases g
    rw [Function.rename]
    congr
    · exact hsignature.name
    · exact hsignature.parameters
    · exact hsignature.returnType
    · exact Option.some.inj hbody

theorem getLocal?_rename (hlocals : Function.Bijective ρ.locals)
    (hhas : ∀ callable, q.Has (callable.rename ρ) ↔ p.Has callable) (hp : BoundOnce p)
    (hq : BoundOnce q) (id : LocalId) :
    q.getLocal? (ρ.locals id) = (p.getLocal? id).map (·.rename ρ.models) := by
  have hbijective := Callable.rename_bijective hmoved.bijective.1 hmoved.bijective.2
  cases hl : p.getLocal? id with
  | some l =>
    have hmem := hp.mem_binders.mpr ⟨l, hl⟩
    rw [Program.binders_eq] at hmem
    obtain ⟨callable, hc, hid⟩ := List.mem_flatMap.mp hmem
    obtain ⟨l', hl', hcarried⟩ := (hbodies callable (Program.mem_callables.mp hc)).carries id hid
    cases hl.symm.trans hl'
    exact hcarried
  | none =>
    cases hl' : q.getLocal? (ρ.locals id) with
    | none => rfl
    | some l' =>
      -- a local of `q` is bound in some body, and so comes from a local of `p`
      have hmem := hq.mem_binders.mpr ⟨l', hl'⟩
      rw [Program.binders_eq] at hmem
      obtain ⟨callable', hc', hid'⟩ := List.mem_flatMap.mp hmem
      obtain ⟨callable, rfl⟩ := hbijective.surjective callable'
      have hc := (hhas callable).mp (Program.mem_callables.mp hc')
      rw [(hbodies callable hc).bindersOf] at hid'
      obtain ⟨id0, hid0, heq⟩ := List.mem_map.mp hid'
      cases hlocals.injective heq
      obtain ⟨l, hl0, _⟩ := (hbodies callable hc).carries id hid0
      cases hl.symm.trans hl0

/-- Where both programs tell definitions apart by name, models are the same too. -/
theorem getModel?_rename (hp : p.stripped.Keyed) (hq : q.stripped.Keyed)
    (hmethods : ∀ {id m}, p.getModel? id = some m → (m.methods.map (·.name)).Nodup)
    (hmethods' : ∀ {id m}, q.getModel? id = some m →
      (m.methods.map (·.name)).Nodup) (id : ModelId) :
    Option.Rel (Model.Renamed ρ) (p.getModel? id) (q.getModel? (ρ.models id)) := by
  have hrel := hmoved.models id
  rw [getModel?_stripped, getModel?_stripped] at hrel
  cases hm : p.getModel? id with
  | none =>
    rw [hm, Option.map_none] at hrel
    cases hn : q.getModel? (ρ.models id) with
    | none => exact .none
    | some n =>
      rw [hn] at hrel
      cases hrel
  | some m =>
    rw [hm, Option.map_some] at hrel
    obtain ⟨n', hn', hname, hfields⟩ := rel_eq_some_left hrel rfl
    obtain ⟨n, hn, rfl⟩ := Option.map_eq_some_iff.mp hn'
    have hm' : p.stripped.getModel? id = some m.stripped := by
      rw [getModel?_stripped, hm]
      rfl
    obtain ⟨n'', hn'', hshape⟩ := (hmoved.similar hp hq).models hm'
    rw [getModel?_stripped, hn, Option.map_some] at hn''
    cases hn''
    have hmethod (name : String) : n.method? name = (m.method? name).map ρ.functions :=
      hshape.method? name
    have hequality := hbodies (.equality id) ⟨m, hm⟩
    have hhashing := (hbodies (.hashing id) ⟨m, hm⟩).body
    rw [hn]
    refine .some ⟨hname, hfields, ?_, hshape.field?, hmethod, ?_, ?_⟩
    · exact Model.methods_perm hmoved.bijective.1 (hmethods hm) (hmethods' hn)
        ((Program.indexed_stripped.mp hp.indexed).methods hm)
        ((Program.indexed_stripped.mp hq.indexed).methods hn) hmethod
    · have hbody := hequality.body
      have hother := hequality.other
      rw [Callable.rename, Program.body?, Program.body?, hm, hn] at hbody
      rw [Callable.rename, Program.other?, Program.other?, hm, hn] at hother
      exact Equality.eq_rename hbody hother
    · rw [Callable.rename, Program.body?, Program.body?, hm, hn] at hhashing
      exact hhashing

end Renamed

end Scribe.Core

namespace Scribe.Lowering

open Scribe.Core

/-! ## Lowering in another order -/

variable {m : Syntax.Module} {ts : Tables}

theorem Traced.nodup_methods {p : Program} (h : Traced m p ts) {id : ModelId}
    {model : Model} (hmodel : p.getModel? id = some model) :
    (model.methods.map (·.name)).Nodup := by
  obtain ⟨md, hmd⟩ := (h.exists_model id).mp ⟨model, hmodel⟩
  obtain ⟨model', hmodel', hmade⟩ := h.models hmd
  cases hmodel.symm.trans hmodel'
  have hnames : model.methods.map (·.name) = md.methods.map (·.name) :=
    map_of_forall₂ (hmade.methods.imp fun _ _ hx => hx.1)
  rw [hnames]
  exact h.declares.distinct.methods md (List.mem_of_getElem? hmd)

section Reordered

variable {m m' : Syntax.Module} {p p' : Program} {ts ts' : Tables}
  (hreordered : m.Reordered m') (h : Traced m p ts)

include hreordered h

theorem Traced.renamed (h' : Traced m' p' ts') (hbound : BoundOnce p)
    (hbound' : BoundOnce p') : ∃ ρ, Program.Renamed ρ p p' := by
  obtain ⟨ρ, hplaced⟩ := exists_placed hreordered h.declares.distinct
  have hs := h.similar hplaced hreordered h'.declares h'.stripped
  obtain ⟨locals, hlocals, haligned⟩ := h.exists_locals h' hplaced hs hbound hbound'
  -- places do not depend on the ids of locals, so all that was said holds of the whole renaming
  have hplaced' : Placed { ρ with locals } m m' :=
    ⟨hplaced.bijective, hplaced.functions, hplaced.models⟩
  have hmoved := hplaced'.moved h.declares h'.declares hreordered
  have hkeyed := h.declares.keyed
  have hkeyed' := h'.declares.keyed
  rw [← h.stripped] at hmoved hkeyed
  rw [← h'.stripped] at hmoved hkeyed'
  have hs' := hs.of_stripped rfl rfl locals
  have hbodies := fun callable (hc : p.Has callable) =>
    h.body_rename h' hplaced hs haligned hc
  refine ⟨{ ρ with locals }, ⟨hplaced.bijective.1, hplaced.bijective.2, hlocals⟩, ?_, ?_,
    getFunction?_rename hmoved hbodies,
    getModel?_rename hmoved hbodies hkeyed hkeyed' h.nodup_methods h'.nodup_methods,
    getLocal?_rename hmoved hbodies hlocals (h.has_rename h' hplaced') hbound hbound',
    hs'.constant?, hs'.function?, hs'.model?⟩
  · have hname := congrArg Program.name h.stripped
    have hname' := congrArg Program.name h'.stripped
    exact hname'.trans (hreordered.name.trans hname.symm)
  · obtain ⟨ts1, hd1, hrenamed⟩ := hplaced'.declares h.declares hreordered
    have hconstants' : p'.constants = ts1.constants.toArray :=
      congrArg Program.constants (h'.stripped.trans (h'.declares.unique hd1))
    rw [h.constants_eq, hconstants', hrenamed, List.map_toArray]

end Reordered

/-- Another order of the definitions can be lowered too. -/
theorem exists_lower_reordered {m m' : Syntax.Module} (hreordered : m.Reordered m') {p : Program}
    (h : lower m none = .ok p) : ∃ p', lower m' none = .ok p' := by
  obtain ⟨hname, ts, htraced⟩ := lower_traced h
  obtain ⟨ρ, hplaced⟩ := exists_placed hreordered htraced.declares.distinct
  obtain ⟨ts', hd, _⟩ := hplaced.declares htraced.declares hreordered
  obtain ⟨p', hdrains⟩ := htraced.drains hplaced hreordered hd
  refine ⟨p', lower_eq_ok.mpr ⟨?_, ts', hd, hdrains⟩⟩
  rw [hreordered.name]
  exact hname

/-- The order of free functions, of models and of the methods of models does not matter: lowering
succeeds in one order exactly if it does in another, and the programs are equal up to ids. -/
theorem lower_reordered {m m' : Syntax.Module} (hreordered : m.Reordered m') :
    ((∃ p, lower m none = .ok p) ↔ ∃ p', lower m' none = .ok p') ∧
      ∀ p p', lower m none = .ok p → lower m' none = .ok p' → ∃ ρ, Program.Renamed ρ p p' := by
  refine ⟨⟨?_, ?_⟩, ?_⟩
  · rintro ⟨p, h⟩
    exact exists_lower_reordered hreordered h
  · rintro ⟨p', h'⟩
    exact exists_lower_reordered hreordered.symm h'
  · intro p p' h h'
    obtain ⟨_, _, htraced⟩ := lower_traced h
    obtain ⟨_, _, htraced'⟩ := lower_traced h'
    exact htraced.renamed hreordered htraced' (lower_pending h).bound (lower_pending h').bound

/-- A module that calls ahead, from a function to a function and between the methods of two
models. -/
def parcelModule : Syntax.Module where
  name := "Post"
  constants := [⟨"base", .int 2⟩]
  functions := [
    { name := "weigh"
      parameters := [⟨"parcels", .list (.model "Parcel")⟩]
      returnType := .int
      body := [
        .declare "sum" (.call (.function "start") []),
        .forEach "parcel" (.var "parcels") [
          .assign (.var "sum")
            (.binary .add (.var "sum") (.call (.method (.var "parcel") "weight") []))],
        .ret (some (.var "sum"))] },
    { name := "start", parameters := [], returnType := .int, body := [.ret (some (.var "base"))] }]
  models := [
    { name := "Parcel"
      fields := [⟨"box", .model "Box"⟩]
      methods := [
        { name := "weight"
          parameters := []
          returnType := .int
          body := [
            .declare "inner" (.call (.method (.var "box") "weight") []),
            .ret (some (.binary .add (.var "inner") (.call (.function "stamp") [])))] },
        { name := "stamp", parameters := [], returnType := .int, body := [.ret (some (.int 1))] }]
      equality := some ⟨"other", [
        .declare "theirs" (.call (.method (.var "other") "weight") []),
        .ret (some (.binary .equals (.call (.function "weight") []) (.var "theirs")))]⟩
      hashing := none },
    { name := "Box"
      fields := [⟨"size", .int⟩]
      methods := [
        { name := "weight"
          parameters := []
          returnType := .int
          body := [
            .declare "inner" (.binary .multiply (.var "size") (.var "base")),
            .ret (some (.var "inner"))] }]
      equality := none
      hashing := some [.ret (some (.var "size"))] }]

/-- The same module from its end to its start. -/
def parcelModuleBackwards : Syntax.Module :=
  { parcelModule with
    functions := parcelModule.functions.reverse
    models := (parcelModule.models.map fun md => { md with methods := md.methods.reverse }).reverse }

/-- The program of `parcelModule`. -/
def parcelProgram : Program :=
  match lower parcelModule none with
  | .ok p => p
  | .error _ => { name := "" }

theorem lower_parcelModule : lower parcelModule none = .ok parcelProgram := by
  cbv

theorem parcelModule_reordered : parcelModule.Reordered parcelModuleBackwards := by
  refine ⟨rfl, rfl, (List.reverse_perm _).symm,
    (parcelModule.models.reverse), (List.reverse_perm _).symm, ?_⟩
  exact .cons ⟨rfl, rfl, (List.reverse_perm _).symm, rfl, rfl⟩
    (.cons ⟨rfl, rfl, (List.reverse_perm _).symm, rfl, rfl⟩ .nil)

theorem parcelProgram_reordered :
    lower parcelModule none = .ok parcelProgram ∧ parcelModule.Reordered parcelModuleBackwards ∧
      ∃ p' ρ, lower parcelModuleBackwards none = .ok p' ∧ Program.Renamed ρ parcelProgram p' := by
  obtain ⟨hiff, hrenamed⟩ := lower_reordered parcelModule_reordered
  obtain ⟨p', hp'⟩ := hiff.mp ⟨_, lower_parcelModule⟩
  obtain ⟨ρ, hρ⟩ := hrenamed _ p' lower_parcelModule hp'
  exact ⟨lower_parcelModule, parcelModule_reordered, p', ρ, hp', hρ⟩

end Scribe.Lowering
