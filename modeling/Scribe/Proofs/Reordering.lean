import Mathlib.Data.List.Nodup
import Mathlib.Data.List.Perm.Basic
import Mathlib.Logic.Equiv.Basic
import Scribe.Proofs.History
import Scribe.Proofs.Transport

/-!
# Definitions in another order

`Syntax.Module.Reordered m m'` says that `m'` has the free functions, the models and the methods of
each model of `m` in other orders. Declaring succeeds for `m'` if it does for `m`
(`Placed.declares`), and the tables hold the same definitions under other ids (`Placed.moved`).

Functions are told apart by their owner and their name. That is all that look-ups by name depend on
(`Program.Keyed`), so it is enough to know where each entry of a table went.
-/

namespace Scribe.Syntax

/-- The same model with its methods in another order. -/
structure Model.Reordered (md md' : Model) : Prop where
  name : md'.name = md.name
  fields : md'.fields = md.fields
  methods : md.methods.Perm md'.methods
  equality : md'.equality = md.equality
  hashing : md'.hashing = md.hashing

/-- The same module with its free functions, its models and the methods of its models in other
orders. -/
structure Module.Reordered (m m' : Module) : Prop where
  name : m'.name = m.name
  constants : m'.constants = m.constants
  functions : m.functions.Perm m'.functions
  models : ∃ mds, m.models.Perm mds ∧ List.Forall₂ Model.Reordered mds m'.models

theorem Model.Reordered.symm {md md' : Model} (h : md.Reordered md') : md'.Reordered md :=
  ⟨h.name.symm, h.fields.symm, h.methods.symm, h.equality.symm, h.hashing.symm⟩

theorem Model.Reordered.map_name {mds mds' : List Model} (h : List.Forall₂ Model.Reordered mds mds') :
    mds'.map (·.name) = mds.map (·.name) :=
  Lowering.map_of_forall₂ (h.imp fun _ _ hmd => hmd.name)

theorem Module.Reordered.symm {m m' : Module} (h : m.Reordered m') : m'.Reordered m := by
  refine ⟨h.name.symm, h.constants.symm, h.functions.symm, ?_⟩
  obtain ⟨mds, hperm, hall⟩ := h.models
  -- the permutation moves to the other side of the pointwise relation
  obtain ⟨mds', hall', hperm'⟩ := List.perm_comp_forall₂ hperm hall
  exact ⟨mds', hperm'.symm, (hall'.imp fun _ _ hmd => hmd.symm).flip⟩

theorem Module.Reordered.nodup_modelNames {m m' : Module} (h : m.Reordered m')
    (hm : (m.models.map (·.name)).Nodup) : (m'.models.map (·.name)).Nodup := by
  obtain ⟨mds, hperm, hall⟩ := h.models
  rw [Model.Reordered.map_name hall]
  exact (hperm.map _).nodup_iff.mp hm

end Scribe.Syntax

namespace Scribe.Lowering

open Scribe.Core

/-! ## Places in permuted lists -/

/-- A permutation that leaves the first place alone. -/
def shiftPerm (e : Equiv.Perm ℕ) : Equiv.Perm ℕ where
  toFun i := i.casesOn 0 fun i => e i + 1
  invFun i := i.casesOn 0 fun i => e.symm i + 1
  left_inv i := by cases i <;> simp
  right_inv i := by cases i <;> simp

theorem exists_perm_getElem? {α : Type} {xs ys : List α} (h : xs.Perm ys) :
    ∃ e : Equiv.Perm ℕ, ∀ i, ys[e i]? = xs[i]? := by
  induction h with
  | nil => exact ⟨Equiv.refl ℕ, fun i => rfl⟩
  | cons x _ ih =>
    obtain ⟨e, he⟩ := ih
    refine ⟨shiftPerm e, fun i => ?_⟩
    cases i with
    | zero => rfl
    | succ i => exact he i
  | swap x y l =>
    refine ⟨Equiv.swap 0 1, fun i => ?_⟩
    rcases i with _ | _ | i
    · rw [Equiv.swap_apply_left]
      rfl
    · rw [Equiv.swap_apply_right]
      rfl
    · rw [Equiv.swap_apply_of_ne_of_ne (by omega) (by omega)]
      rfl
  | trans _ _ ih1 ih2 =>
    obtain ⟨e1, he1⟩ := ih1
    obtain ⟨e2, he2⟩ := ih2
    exact ⟨e1.trans e2, fun i => (he2 _).trans (he1 i)⟩

theorem exists_forall₂ {α β : Type} {R : α → β → Prop} {xs : List α} (h : ∀ x ∈ xs, ∃ y, R x y) :
    ∃ ys, List.Forall₂ R xs ys := by
  induction xs with
  | nil => exact ⟨[], .nil⟩
  | cons x xs ih =>
    obtain ⟨⟨y, hy⟩, hxs⟩ := List.forall_mem_cons.mp h
    obtain ⟨ys, hys⟩ := ih hxs
    exact ⟨y :: ys, .cons hy hys⟩

end Scribe.Lowering

namespace Scribe.Core

open Scribe.Lowering

/-! ## Programs by owner and name -/

/-- Definitions are told apart by name, functions by owner and name, and the methods of a model are
the functions that it owns. -/
structure Program.Keyed (p : Program) : Prop where
  indexed : p.Indexed
  functions : ∀ {i j f g}, p.getFunction? i = some f →
    p.getFunction? j = some g → f.owner = g.owner → f.name = g.name → i = j
  method? : ∀ {id m}, p.getModel? id = some m → ∀ name function,
    m.method? name = some function ↔
      ∃ f, p.getFunction? function = some f ∧ f.owner = some id ∧ f.name = name

end Scribe.Core

namespace Scribe.Lowering

open Scribe.Core

/-- Where each entry of the tables went. -/
structure Moved (ρ : Renaming) (p q : Program) : Prop where
  bijective : Function.Bijective ρ.functions ∧ Function.Bijective ρ.models
  constants : Array.map (fun k : Constant => (k.name, k.type.rename ρ.models)) p.constants =
    Array.map (fun k : Constant => (k.name, k.type)) q.constants
  functions : ∀ id, Option.Rel (fun f g => SignatureRenamed ρ f g ∧ g.owner = f.owner.map ρ.models)
    (p.getFunction? id) (q.getFunction? (ρ.functions id))
  models : ∀ id, Option.Rel
    (fun m n => n.name = m.name ∧ n.fields = m.fields.map (·.rename ρ.models))
    (p.getModel? id) (q.getModel? (ρ.models id))

theorem rel_map {α β : Type} (f : α → β) (x : Option α) :
    Option.Rel (fun a b => b = f a) x (x.map f) := by
  cases x with
  | none => exact .none
  | some a => exact .some rfl

/-- Two entries are related if what they come from is. -/
theorem rel_square {α α' β β' : Type} {R : α → α' → Prop} {S : α → β → Prop} {S' : α' → β' → Prop}
    {T : β → β' → Prop} {x : Option α} {x' : Option α'} {y : Option β} {y' : Option β'}
    (hR : Option.Rel R x x') (hS : Option.Rel S x y) (hS' : Option.Rel S' x' y')
    (h : ∀ a a' b b', R a a' → S a b → S' a' b' → T b b') : Option.Rel T y y' := by
  cases hR with
  | none =>
    cases hS
    cases hS'
    exact .none
  | some hR =>
    cases hS with
    | some hS =>
      cases hS' with
      | some hS' => exact .some (h _ _ _ _ hR hS hS')

section Moved

variable {ρ : Renaming} {p q : Program} (h : Moved ρ p q)

include h

theorem Moved.function (id : FunctionId) (owner : Option ModelId) (name : String) :
    (∃ g, q.getFunction? (ρ.functions id) = some g ∧ g.owner = owner.map ρ.models ∧ g.name = name) ↔
      ∃ f, p.getFunction? id = some f ∧ f.owner = owner ∧ f.name = name := by
  constructor
  · rintro ⟨g, hg, howner, rfl⟩
    obtain ⟨f, hf, hrenamed, howner'⟩ := rel_eq_some_right (h.functions id) hg
    refine ⟨f, hf, ?_, hrenamed.name.symm⟩
    exact Option.map_injective h.bijective.2.injective (howner'.symm.trans howner)
  · rintro ⟨f, hf, rfl, rfl⟩
    obtain ⟨g, hg, hrenamed, howner⟩ := rel_eq_some_left (h.functions id) hf
    exact ⟨g, hg, howner, hrenamed.name⟩

/-- What look-ups by name find went where the tables say. -/
theorem Moved.similar (hp : p.Keyed) (hq : q.Keyed) : Similar ρ p q := by
  have hconstant (i : ℕ) : (q.constants[i]?).map (fun k => (k.name, k.type)) =
      (p.constants[i]?).map fun k => (k.name, k.type.rename ρ.models) := by
    rw [← Array.getElem?_map, ← h.constants, Array.getElem?_map]
  refine ⟨?_, ?_, ?_, ?_, ?_, ?_⟩
  · intro name
    ext id
    have hname := congrArg (Option.map Prod.fst) (hconstant id.index)
    rw [Option.map_map, Option.map_map] at hname
    rw [hq.indexed.constant?_eq_some, hp.indexed.constant?_eq_some, ← Option.map_eq_some_iff,
      ← Option.map_eq_some_iff]
    exact iff_of_eq (congrArg (· = some name) hname)
  · intro name
    ext id'
    obtain ⟨id, rfl⟩ := h.bijective.1.surjective id'
    rw [Option.map_eq_some_iff, hq.indexed.function?_eq_some]
    refine (h.function id none name).trans ?_
    rw [← hp.indexed.function?_eq_some]
    constructor
    · intro hid
      exact ⟨id, hid, rfl⟩
    · rintro ⟨_, hid, heq⟩
      rw [← h.bijective.1.injective heq]
      exact hid
  · intro name
    ext id'
    obtain ⟨id, rfl⟩ := h.bijective.2.surjective id'
    rw [Option.map_eq_some_iff, hq.indexed.model?_eq_some]
    constructor
    · rintro ⟨n, hn, rfl⟩
      obtain ⟨m, hm, hname, _⟩ := rel_eq_some_right (h.models id) hn
      exact ⟨id, hp.indexed.model?_eq_some.mpr ⟨m, hm, hname.symm⟩, rfl⟩
    · rintro ⟨_, hid, heq⟩
      obtain ⟨m, hm, rfl⟩ := hp.indexed.model?_eq_some.mp hid
      rw [h.bijective.2.injective heq] at hm
      obtain ⟨n, hn, hname, _⟩ := rel_eq_some_left (h.models id) hm
      exact ⟨n, hn, hname⟩
  · intro id k hk
    have hi := hconstant id.index
    rw [Program.getConstant?] at hk
    rw [hk, Option.map_some, Option.map_eq_some_iff] at hi
    obtain ⟨k', hk', heq⟩ := hi
    exact ⟨k', hk', (Prod.mk.inj heq).2⟩
  · intro id f hf
    obtain ⟨g, hg, hrenamed, _⟩ := rel_eq_some_left (h.functions id) hf
    exact ⟨g, hg, hrenamed⟩
  · intro id m hm
    obtain ⟨n, hn, hname, hfields⟩ := rel_eq_some_left (h.models id) hm
    refine ⟨n, hn, hname, hfields, fun name => ?_, fun name => ?_⟩
    · ext i
      rw [hq.indexed.field?_eq_some hn, hp.indexed.field?_eq_some hm, hfields, List.getElem?_map]
      simp [Field.rename]
    ext function'
    obtain ⟨function, rfl⟩ := h.bijective.1.surjective function'
    rw [Option.map_eq_some_iff, hq.method? hn]
    refine (h.function function (some id) name).trans ?_
    rw [← hp.method? hm]
    constructor
    · intro hf
      exact ⟨function, hf, rfl⟩
    · rintro ⟨_, hf, heq⟩
      rw [← h.bijective.1.injective heq]
      exact hf

end Moved

/-! ## Declared programs -/

section Declared

variable {m : Syntax.Module} {ts : Tables} (h : Declares m ts)

include h

theorem Declares.unique {ts' : Tables} (h' : Declares m ts') :
    declaredProgram m ts = declaredProgram m ts' := by
  have hrun := declareAll_eq_ok.mpr ⟨ts, h, rfl, rfl⟩
  have hrun' := declareAll_eq_ok.mpr ⟨ts', h', rfl, rfl⟩
  have hsame := hrun.symm.trans hrun'
  injection hsame with _ hcontext
  injection hcontext

theorem Declares.keyed : (declaredProgram m ts).Keyed := by
  refine ⟨h.indexed, h.function_unique, ?_⟩
  · intro id model hm name function
    obtain ⟨md, hmd⟩ := h.model_of_getModel? hm
    obtain ⟨fields, n, hmodel, _, _, hmethods⟩ := h.model hmd
    cases hm.symm.trans hmodel
    have hfound {name : String} {function : FunctionId}
        (hf : (modelOf n md fields).method? name = some function) :
        ∃ f, (declaredProgram m ts).getFunction? function = some f ∧
          f.owner = some id ∧ f.name = name := by
      obtain ⟨f, _, hname, g, hg, hof⟩ :=
        exists_left_of_forall₂ hmethods ((h.indexed.method?_eq_some hmodel).mp hf)
      exact ⟨g, hg, hof.signature.owner, hof.signature.name.trans hname.symm⟩
    refine ⟨hfound, ?_⟩
    rintro ⟨g, hg, howner, rfl⟩
    -- the owner knows a method of that name, and there is only one such function
    obtain ⟨_, _, mm, hmm, x, hx, hname, _⟩ := h.owned hg howner
    cases hm.symm.trans hmm
    have hsome : ((modelOf n md fields).method? g.name).isSome = true := by
      rw [h.indexed.isSome_method? hmodel]
      exact List.mem_map.mpr ⟨x, hx, hname⟩
    obtain ⟨function', hfunction'⟩ := Option.isSome_iff_exists.mp hsome
    obtain ⟨g', hg', howner', hname'⟩ := hfound hfunction'
    rw [hfunction', h.function_unique hg' hg (howner'.trans howner.symm) hname']

end Declared

/-! ## Declaring in another order -/

variable {f : Syntax.Function} {owner : Option ModelId} {p q : Program} {ρ : Renaming}

/-- Lowering a signature under new ids. -/
theorem SignatureOf.rename (hs : Similar ρ p q) {g : Function} (h : SignatureOf p owner f g) :
    SignatureOf q (owner.map ρ.models) f (g.rename ρ) := by
  refine ⟨h.valid, h.name, ?_, h.distinct, hs.lowerType h.returnType, ?_⟩
  · refine List.forall₂_map_right_iff.mpr (h.parameters.imp ?_)
    intro x y hx
    exact ⟨hx.valid, hx.name, hs.lowerValueType hx.type⟩
  · rw [Function.rename, h.owner]

theorem Undefined.rename (hs : Similar ρ p q) {g : Function} (h : Undefined p owner f g) :
    Undefined q (owner.map ρ.models) f (g.rename ρ) := by
  refine ⟨h.signature.rename hs, ?_⟩
  rw [Function.rename, h.body]
  rfl

theorem FieldOf.rename (hs : Similar ρ p q) {f : Syntax.Field} {f' : Field} (h : FieldOf p f f') :
    FieldOf q f (f'.rename ρ.models) :=
  ⟨h.valid, h.name, hs.lowerValueType h.type⟩

theorem FieldOf.unique {p : Program} {f : Syntax.Field} {f1 f2 : Field} (h1 : FieldOf p f f1)
    (h2 : FieldOf p f f2) : f1 = f2 := by
  have htype := Except.ok.inj (h1.type.symm.trans h2.type)
  cases f1
  cases f2
  simp only [Field.mk.injEq]
  exact ⟨h1.name.trans h2.name.symm, htype⟩

theorem ParameterOf.unique {p : Program} {x : Syntax.Parameter} {y1 y2 : Parameter}
    (h1 : ParameterOf p x y1) (h2 : ParameterOf p x y2) : y1 = y2 := by
  have htype := Except.ok.inj (h1.type.symm.trans h2.type)
  cases y1
  cases y2
  simp only [Parameter.mk.injEq]
  exact ⟨h1.name.trans h2.name.symm, htype⟩

theorem SignatureOf.unique {p : Program} {g1 g2 : Function} (h1 : SignatureOf p owner f g1)
    (h2 : SignatureOf p owner f g2) : g1.SameSignature g2 := by
  refine ⟨h2.name.trans h1.name.symm, ?_, ?_, h2.owner.trans h1.owner.symm⟩
  · have hunique : Relator.RightUnique (ParameterOf p) := fun _ _ _ hy hz => hy.unique hz
    exact List.right_unique_forall₂' hunique h2.parameters h1.parameters
  · exact Except.ok.inj (h2.returnType.symm.trans h1.returnType)

/-- Ids under a permutation of the places in their table. -/
def moveModel (e : Equiv.Perm ℕ) (id : ModelId) : ModelId :=
  ⟨e id.index⟩

def moveFunction (e : Equiv.Perm ℕ) (id : FunctionId) : FunctionId :=
  ⟨e id.index⟩

theorem moveModel_bijective (e : Equiv.Perm ℕ) : Function.Bijective (moveModel e) := by
  constructor
  · rintro ⟨i⟩ ⟨j⟩ h
    exact congrArg ModelId.mk (e.injective (ModelId.mk.inj h))
  · rintro ⟨i⟩
    exact ⟨⟨e.symm i⟩, congrArg ModelId.mk (e.apply_symm_apply i)⟩

theorem moveFunction_bijective (e : Equiv.Perm ℕ) : Function.Bijective (moveFunction e) := by
  constructor
  · rintro ⟨i⟩ ⟨j⟩ h
    exact congrArg FunctionId.mk (e.injective (FunctionId.mk.inj h))
  · rintro ⟨i⟩
    exact ⟨⟨e.symm i⟩, congrArg FunctionId.mk (e.apply_symm_apply i)⟩

section Reordered

variable {m m' : Syntax.Module} (h : m.Reordered m')

include h

theorem exists_models_moved :
    ∃ e : Equiv.Perm ℕ, ∀ i, Option.Rel Syntax.Model.Reordered m.models[i]? m'.models[e i]? := by
  obtain ⟨mds, hperm, hall⟩ := h.models
  obtain ⟨e, he⟩ := exists_perm_getElem? hperm
  refine ⟨e, fun i => ?_⟩
  rw [← he]
  exact rel_getElem?_of_forall₂ hall (e i)

variable {e : Equiv.Perm ℕ}
  (he : ∀ i, Option.Rel Syntax.Model.Reordered m.models[i]? m'.models[e i]?)

include he

omit h in
theorem exists_model_of_mem {md' : Syntax.Model} (hmd' : md' ∈ m'.models) :
    ∃ i md, m.models[i]? = some md ∧ m'.models[e i]? = some md' ∧ md.Reordered md' := by
  obtain ⟨j, hj⟩ := List.mem_iff_getElem?.mp hmd'
  obtain ⟨i, rfl⟩ := e.surjective j
  obtain ⟨md, hmd, hreordered⟩ := rel_eq_some_right (he i) hj
  exact ⟨i, md, hmd, hj, hreordered⟩

theorem Distinct.reordered (hd : Distinct m) : Distinct m' := by
  refine ⟨((h.functions.map _).nodup_iff).mp hd.functions, ?_⟩
  intro md' hmd'
  obtain ⟨i, md, hmd, _, hreordered⟩ := exists_model_of_mem he hmd'
  exact ((hreordered.methods.map _).nodup_iff).mp (hd.methods md (List.mem_of_getElem? hmd))

theorem definitions_perm (hd : Distinct m) :
    ((definitions m).map fun x => (x.1.map (moveModel e), x.2)).Perm (definitions m') := by
  have hnodup {m : Syntax.Module} (hd : Distinct m) : (definitions m).Nodup :=
    .of_map _ (nodup_keys hd)
  have hinj : Function.Injective fun x : Option ModelId × Syntax.Function =>
      (x.1.map (moveModel e), x.2) := by
    intro x y hxy
    obtain ⟨howner, hf⟩ := Prod.mk.inj hxy
    exact Prod.ext (Option.map_injective (moveModel_bijective e).injective howner) hf
  refine (List.perm_ext_iff_of_nodup ((hnodup hd).map hinj) (hnodup (hd.reordered h he))).mpr ?_
  rintro ⟨owner, f⟩
  rw [List.mem_map, mem_definitions]
  constructor
  · rintro ⟨⟨owner', g⟩, hx, heq⟩
    obtain ⟨rfl, rfl⟩ := Prod.mk.inj heq
    rcases mem_definitions.mp hx with ⟨rfl, hg⟩ | ⟨i, md, hmd, rfl, hg⟩
    · exact .inl ⟨rfl, h.functions.subset hg⟩
    · obtain ⟨md', hmd', hreordered⟩ := rel_eq_some_left (he i) hmd
      exact .inr ⟨e i, md', hmd', rfl, hreordered.methods.subset hg⟩
  · rintro (⟨rfl, hf⟩ | ⟨j, md', hmd', rfl, hf⟩)
    · exact ⟨(none, f), mem_definitions.mpr (.inl ⟨rfl, h.functions.symm.subset hf⟩), rfl⟩
    · obtain ⟨i, rfl⟩ := e.surjective j
      obtain ⟨md, hmd, hreordered⟩ := rel_eq_some_right (he i) hmd'
      have hf' := hreordered.methods.symm.subset hf
      exact ⟨(some ⟨i⟩, f), mem_definitions.mpr (.inr ⟨i, md, hmd, rfl, hf'⟩), rfl⟩

end Reordered

/-! ### Models without members -/

theorem getModel?_bareProgram (name : String) (mds : List Syntax.Model) (id : ModelId) :
    (bareProgram name mds).getModel? id =
      mds[id.index]?.map fun md => ({ name := md.name } : Model) := by
  rw [Program.getModel?, bareProgram, List.getElem?_toArray, List.getElem?_map]

theorem getFunction?_bareProgram (name : String) (mds : List Syntax.Model) (id : FunctionId) :
    (bareProgram name mds).getFunction? id = none :=
  Array.getElem?_empty

theorem keyed_bareProgram {name : String} {mds : List Syntax.Model}
    (h : (mds.map (·.name)).Nodup) : (bareProgram name mds).Keyed := by
  refine ⟨(bareProgram_sound name h).1.indexed, ?_, ?_⟩
  · intro i j f g hf
    rw [getFunction?_bareProgram] at hf
    cases hf
  · intro id m hm name function
    rw [getModel?_bareProgram, Option.map_eq_some_iff] at hm
    obtain ⟨md, _, rfl⟩ := hm
    rw [getFunction?_bareProgram]
    constructor
    · rintro ⟨⟩
    · rintro ⟨f, ⟨⟩, _⟩

/-! ### Where definitions went -/

/-- Where each definition of a module stands in another one. -/
structure Placed (ρ : Renaming) (m m' : Syntax.Module) : Prop where
  bijective : Function.Bijective ρ.functions ∧ Function.Bijective ρ.models
  functions : ∀ id : FunctionId, Option.Rel (fun x y => y = (x.1.map ρ.models, x.2))
    (definitions m)[id.index]? (definitions m')[(ρ.functions id).index]?
  models : ∀ id : ModelId,
    Option.Rel Syntax.Model.Reordered m.models[id.index]? m'.models[(ρ.models id).index]?

theorem exists_placed {m m' : Syntax.Module} (h : m.Reordered m') (hd : Distinct m) :
    ∃ ρ, Placed ρ m m' := by
  obtain ⟨e, he⟩ := exists_models_moved h
  obtain ⟨e', he'⟩ := exists_perm_getElem? (definitions_perm h he hd)
  refine ⟨⟨moveFunction e', moveModel e, id⟩,
    ⟨moveFunction_bijective e', moveModel_bijective e⟩, ?_, fun id => he id.index⟩
  intro id
  have hid := he' id.index
  rw [List.getElem?_map] at hid
  show Option.Rel _ _ (definitions m')[e' id.index]?
  rw [hid]
  exact rel_map _ _

/-- Constants can be lowered in the same order, whatever the ids of models are. -/
theorem ConstantsOf.rename {cs : List Syntax.Constant} {ks : List Constant}
    (h : ConstantsOf p cs ks) (hmoved : Moved ρ p q) (hp : p.Keyed) (hq : q.Keyed) :
    ConstantsOf q cs (ks.map (·.rename ρ)) := by
  induction h generalizing q with
  | nil => exact .nil
  | @cons p k k' ks ks' hvalid hname hform hvalue htype hfresh hks ih =>
    have hs := hmoved.similar hp hq
    obtain ⟨hvalue', hkept⟩ := hvalue.rename hs (List.forall_mem_nil _)
    have hfresh' : k.name ∉ q.valueNames := by
      rw [← Program.hasValue_eq_false] at hfresh ⊢
      rw [Program.hasValue, hs.constant?, hs.function?, Option.isSome_map]
      exact hfresh
    refine .cons hvalid hname hform hvalue' (hkept.typeOf htype) hfresh' (ih ?_ ?_ ?_)
    · refine ⟨hmoved.bijective, ?_, hmoved.functions, hmoved.models⟩
      simp [Program.withConstants, hmoved.constants, Constant.rename]
    · exact ⟨withConstants_indexed hp.indexed (hname ▸ hfresh), hp.functions, hp.method?⟩
    · refine ⟨withConstants_indexed hq.indexed ?_, hq.functions, hq.method?⟩
      rw [show (k'.rename ρ).name = k.name from hname]
      exact hfresh'

theorem MembersOf.rename (hs : Similar ρ p q) {id : ModelId} {md md' : Syntax.Model}
    {fields : List Field} {gs : List Function} (h : MembersOf p id md fields gs)
    (hmd : md.Reordered md') :
    ∃ gs', MembersOf q (ρ.models id) md' (fields.map (·.rename ρ.models)) gs' := by
  have hmethods : ∀ f ∈ md'.methods, ∃ g, Undefined q (some (ρ.models id)) f g := by
    intro f hf
    obtain ⟨g, _, hg⟩ := exists_left_of_forall₂ h.methods.flip (hmd.methods.symm.subset hf)
    exact ⟨g.rename ρ, hg.rename hs⟩
  obtain ⟨gs', hgs'⟩ := exists_forall₂ hmethods
  refine ⟨gs', ?_, hgs', ?_⟩
  · rw [hmd.fields]
    exact List.forall₂_map_right_iff.mpr (h.fields.imp fun _ _ hf => hf.rename hs)
  · rw [hmd.fields]
    exact ((hmd.methods.map _).append_left _).nodup_iff.mp h.distinct

section Placed

variable {ρ : Renaming} {m m' : Syntax.Module} (h : Placed ρ m m')

include h

theorem Placed.exists_model {id' : ModelId} {md' : Syntax.Model}
    (hmd' : m'.models[id'.index]? = some md') :
    ∃ id md, m.models[id.index]? = some md ∧ id' = ρ.models id ∧ md.Reordered md' := by
  obtain ⟨id, rfl⟩ := h.bijective.2.surjective id'
  obtain ⟨md, hmd, hreordered⟩ := rel_eq_some_right (h.models id) hmd'
  exact ⟨id, md, hmd, rfl, hreordered⟩

theorem Placed.moved_bareProgram :
    Moved ρ (bareProgram m.name m.models) (bareProgram m'.name m'.models) := by
  refine ⟨h.bijective, ?_, ?_, ?_⟩
  · rw [bareProgram, bareProgram, Array.map_empty, Array.map_empty]
  · intro id
    rw [getFunction?_bareProgram, getFunction?_bareProgram]
    exact .none
  · intro id
    rw [getModel?_bareProgram, getModel?_bareProgram]
    refine rel_square (h.models id) (rel_map _ _) (rel_map _ _) ?_
    rintro md md' _ _ hreordered rfl rfl
    exact ⟨hreordered.name, rfl⟩

variable {ts : Tables} (hd : Declares m ts)

include hd

theorem Placed.similar_bareProgram (hreordered : m.Reordered m') :
    Similar ρ (bareProgram m.name m.models) (bareProgram m'.name m'.models) :=
  h.moved_bareProgram.similar (keyed_bareProgram hd.models)
    (keyed_bareProgram (hreordered.nodup_modelNames hd.models))

/-- Declaring succeeds in the other order too. -/
theorem Placed.declares (hreordered : m.Reordered m') :
    ∃ ts', Declares m' ts' ∧ ts'.constants = ts.constants.map (·.rename ρ) := by
  have hs := h.similar_bareProgram hd hreordered
  have hnames := hreordered.nodup_modelNames hd.models
  have hfunctions : ∀ f ∈ m'.functions, ∃ g, Undefined (bareProgram m'.name m'.models) none f g := by
    intro f hf
    obtain ⟨g, _, hg⟩ :=
      exists_left_of_forall₂ hd.functions.flip (hreordered.functions.symm.subset hf)
    exact ⟨g.rename ρ, hg.rename hs⟩
  have hmembers : ∀ x ∈ numbered m'.models, ∃ y : List Field × List Function,
      MembersOf (bareProgram m'.name m'.models) x.1 x.2 y.1 y.2 := by
    rintro ⟨id', md'⟩ hx
    obtain ⟨id, md, hmd, rfl, hmd'⟩ := h.exists_model (mem_numbered.mp hx)
    obtain ⟨y, _, hy⟩ := exists_left_of_forall₂ hd.members.flip (mem_numbered.mpr hmd)
    obtain ⟨gs', hgs'⟩ := hy.rename hs hmd'
    exact ⟨(_, gs'), hgs'⟩
  obtain ⟨gs', hgs'⟩ := exists_forall₂ hfunctions
  obtain ⟨members', hmembers'⟩ := exists_forall₂ hmembers
  refine ⟨⟨_, gs', members'⟩, ⟨?_, hnames, ?_, hgs', ?_, hmembers'⟩, rfl⟩
  · intro md' hmd'
    obtain ⟨i, hi⟩ := List.mem_iff_getElem?.mp hmd'
    have hid : m'.models[(⟨i⟩ : ModelId).index]? = some md' := hi
    obtain ⟨_, md, hmd, _, hmodel⟩ := h.exists_model hid
    rw [hmodel.name]
    exact hd.modelNames md (List.mem_of_getElem? hmd)
  · rw [hreordered.constants]
    exact hd.constants.rename h.moved_bareProgram (keyed_bareProgram hd.models)
      (keyed_bareProgram hnames)
  · rw [hreordered.constants]
    exact ((hreordered.functions.map _).append_left _).nodup_iff.mp hd.values

/-- The tables hold the same definitions. -/
theorem Placed.moved {ts' : Tables} (hd' : Declares m' ts') (hreordered : m.Reordered m') :
    Moved ρ (declaredProgram m ts) (declaredProgram m' ts') := by
  have hs := h.similar_bareProgram hd hreordered
  refine ⟨h.bijective, ?_, ?_, ?_⟩
  · obtain ⟨_, hd1, hconstants⟩ := h.declares hd hreordered
    rw [hd'.unique hd1]
    simp [declaredProgram, Constant.rename, hconstants]
  · intro id
    refine rel_square (h.functions id) (hd.rel_function id.index) (hd'.rel_function _) ?_
    rintro x _ f g rfl hf hg
    have hsame := (hf.signature.rename hs).unique hg.signature
    exact ⟨⟨hsame.name, hsame.parameters, hsame.returnType⟩, hsame.owner⟩
  · intro id
    refine rel_square (h.models id) (hd.rel_model id.index) (hd'.rel_model _) ?_
    rintro md md' model model' hmd ⟨hname, hfields⟩ ⟨hname', hfields'⟩
    refine ⟨hname'.trans (hmd.name.trans hname.symm), ?_⟩
    have hrenamed := hfields.imp fun _ _ hf => hf.rename hs
    rw [hmd.fields] at hfields'
    have hunique : Relator.RightUnique (FieldOf (bareProgram m'.name m'.models)) :=
      fun _ _ _ hf hg => hf.unique hg
    exact List.right_unique_forall₂' hunique hfields' (List.forall₂_map_right_iff.mpr hrenamed)

end Placed

end Scribe.Lowering
