import Mathlib.Data.List.Forall2
import Scribe.Proofs.Reordering

/-!
# Modules that differ in blocks only

`Syntax.Module.SameSignatures m m'` says that two modules differ at most in what stands in their
blocks. They declare the same program (`Declares.same`, `declaredProgram_same`), and each callable
has a block in both or in none (`isSome_blockOf?_same`).
-/

namespace Scribe.Syntax

/-- Functions that differ at most in their bodies. -/
structure Function.SameSignature (f f' : Function) : Prop where
  name : f'.name = f.name
  parameters : f'.parameters = f.parameters
  returnType : f'.returnType = f.returnType

/-- Models that differ at most in the bodies of methods and overrides. -/
structure Model.SameSignatures (md md' : Model) : Prop where
  name : md'.name = md.name
  fields : md'.fields = md.fields
  methods : List.Forall₂ Function.SameSignature md.methods md'.methods
  equality : md'.equality.map (·.other) = md.equality.map (·.other)
  hashing : md'.hashing.isSome = md.hashing.isSome

/-- Modules that differ at most in blocks. -/
structure Module.SameSignatures (m m' : Module) : Prop where
  name : m'.name = m.name
  constants : m'.constants = m.constants
  functions : List.Forall₂ Function.SameSignature m.functions m'.functions
  models : List.Forall₂ Model.SameSignatures m.models m'.models

theorem Function.SameSignature.symm {f f' : Function} (h : f.SameSignature f') :
    f'.SameSignature f :=
  ⟨h.name.symm, h.parameters.symm, h.returnType.symm⟩

variable {md md' : Model} {m m' : Module}

theorem Model.SameSignatures.symm (h : md.SameSignatures md') : md'.SameSignatures md :=
  ⟨h.name.symm, h.fields.symm, (h.methods.imp fun _ _ hf => hf.symm).flip, h.equality.symm,
    h.hashing.symm⟩

theorem Module.SameSignatures.symm (h : m.SameSignatures m') : m'.SameSignatures m :=
  ⟨h.name.symm, h.constants.symm, (h.functions.imp fun _ _ hf => hf.symm).flip,
    (h.models.imp fun _ _ hmd => hmd.symm).flip⟩

theorem Function.SameSignature.map_name {fs fs' : List Function}
    (h : List.Forall₂ Function.SameSignature fs fs') : fs'.map (·.name) = fs.map (·.name) :=
  Lowering.map_of_forall₂ (h.imp fun _ _ hf => hf.name)

theorem Model.SameSignatures.map_name {mds mds' : List Model}
    (h : List.Forall₂ Model.SameSignatures mds mds') : mds'.map (·.name) = mds.map (·.name) :=
  Lowering.map_of_forall₂ (h.imp fun _ _ hmd => hmd.name)

/-- Models at the same place differ at most in bodies. -/
theorem Module.SameSignatures.model (h : m.SameSignatures m') {i : Nat}
    (hmd : m.models[i]? = some md) (hmd' : m'.models[i]? = some md') : md.SameSignatures md' := by
  obtain ⟨_, hget, hsame⟩ :=
    Lowering.rel_eq_some_left (Lowering.rel_getElem?_of_forall₂ h.models i) hmd
  cases hmd'.symm.trans hget
  exact hsame

end Scribe.Syntax

namespace Scribe.Lowering

open Scribe.Core

/-! ## Definitions -/

variable {p : Program} {mds mds' : List Syntax.Model}

variable {owner : Option ModelId} {fs fs' : List Syntax.Function} {gs : List Function}

theorem SignatureOf.same {f f' : Syntax.Function} {g : Function} (h : SignatureOf p owner f g)
    (hf : f.SameSignature f') : SignatureOf p owner f' g := by
  refine ⟨?_, h.name.trans hf.name.symm, ?_, ?_, ?_, h.owner⟩
  · rw [hf.name]
    exact h.valid
  · rw [hf.parameters]
    exact h.parameters
  · rw [hf.parameters]
    exact h.distinct
  · rw [hf.returnType]
    exact h.returnType

theorem forall₂_undefined_same (h : List.Forall₂ (Undefined p owner) fs gs)
    (hfs : List.Forall₂ Syntax.Function.SameSignature fs fs') :
    List.Forall₂ (Undefined p owner) fs' gs := by
  induction h generalizing fs' with
  | nil =>
    cases hfs
    exact .nil
  | cons hg _ ih =>
    cases hfs with
    | cons hf hfs => exact .cons ⟨hg.signature.same hf, hg.body⟩ (ih hfs)

theorem methodsFrom_same (h : List.Forall₂ Syntax.Function.SameSignature fs fs') (n : Nat) :
    methodsFrom n fs' = methodsFrom n fs := by
  induction h generalizing n with
  | nil => rfl
  | cons hf _ ih => rw [methodsFrom, methodsFrom, hf.name, ih]

theorem MembersOf.same {id : ModelId} {md md' : Syntax.Model} {fields : List Field}
    (h : MembersOf p id md fields gs) (hmd : md.SameSignatures md') :
    MembersOf p id md' fields gs := by
  refine ⟨?_, forall₂_undefined_same h.methods hmd.methods, ?_⟩
  · rw [hmd.fields]
    exact h.fields
  · rw [hmd.fields, Syntax.Function.SameSignature.map_name hmd.methods]
    exact h.distinct

theorem forall₂_membersOf_same {xs ys : List (ModelId × Syntax.Model)}
    {members : List (List Field × List Function)}
    (h : List.Forall₂ (fun x y => MembersOf p x.1 x.2 y.1 y.2) xs members)
    (hxs : List.Forall₂ (fun x y => y.1 = x.1 ∧ x.2.SameSignatures y.2) xs ys) :
    List.Forall₂ (fun x y => MembersOf p x.1 x.2 y.1 y.2) ys members := by
  induction h generalizing ys with
  | nil =>
    cases hxs
    exact .nil
  | cons hx _ ih =>
    cases hxs with
    | cons hy hxs =>
      refine .cons ?_ (ih hxs)
      rw [hy.1]
      exact hx.same hy.2

/-- Models that declare the same have the same ids. -/
theorem forall₂_numbered_same (h : List.Forall₂ Syntax.Model.SameSignatures mds mds') :
    List.Forall₂ (fun x y => y.1 = x.1 ∧ x.2.SameSignatures y.2) (numbered mds)
      (numbered mds') := by
  have hlength := h.length_eq
  refine List.forall₂_iff_get.mpr ⟨by simp [numbered, modelIds, hlength], ?_⟩
  intro i hi hi'
  have hlt : i < mds.length := by
    simpa [numbered, modelIds] using hi
  simp only [numbered, modelIds, List.get_eq_getElem, List.getElem_zip, List.getElem_map,
    List.getElem_range', true_and]
  exact h.get hlt (hlength ▸ hlt)

theorem bareProgram_same (h : List.Forall₂ Syntax.Model.SameSignatures mds mds') (name : String) :
    bareProgram name mds' = bareProgram name mds := by
  have hnames := Syntax.Model.SameSignatures.map_name h
  have hmap : (mds'.map fun md => ({ name := md.name } : Model)) =
      mds.map fun md => ({ name := md.name } : Model) := by
    have hmap := congrArg (List.map fun name : String => ({ name } : Model)) hnames
    rw [List.map_map, List.map_map] at hmap
    exact hmap
  rw [bareProgram, bareProgram, hmap, hnames]

theorem modelsFrom_same (h : List.Forall₂ Syntax.Model.SameSignatures mds mds') (n : Nat)
    (xs : List (List Field × List Function)) : modelsFrom n mds' xs = modelsFrom n mds xs := by
  induction h generalizing n xs with
  | nil => rfl
  | cons hmd _ ih =>
    cases xs with
    | nil => rfl
    | cons x xs =>
      rw [modelsFrom, modelsFrom, ih, modelOf, modelOf, hmd.name, methodsFrom_same hmd.methods]

/-! ## Modules -/

section Same

variable {m m' : Syntax.Module} (hm : m.SameSignatures m') {ts : Tables}

include hm

theorem declaredProgram_same :
    declaredProgram m' ts = declaredProgram m ts := by
  rw [declaredProgram, declaredProgram, hm.name, modelsFrom_same hm.models,
    Syntax.Model.SameSignatures.map_name hm.models]

/-- What one module declares, the other declares too. -/
theorem Declares.same (h : Declares m ts) : Declares m' ts := by
  have hbare : bareProgram m'.name m'.models = bareProgram m.name m.models := by
    rw [hm.name, bareProgram_same hm.models]
  have hnames := Syntax.Model.SameSignatures.map_name hm.models
  refine ⟨?_, ?_, ?_, ?_, ?_, ?_⟩
  · intro md' hmd'
    have hmem : md'.name ∈ m.models.map (·.name) := by
      rw [← hnames]
      exact List.mem_map.mpr ⟨md', hmd', rfl⟩
    obtain ⟨md, hmd, hname⟩ := List.mem_map.mp hmem
    rw [← hname]
    exact h.modelNames md hmd
  · rw [hnames]
    exact h.models
  · rw [hbare, hm.constants]
    exact h.constants
  · rw [hbare]
    exact forall₂_undefined_same h.functions hm.functions
  · rw [hm.constants, Syntax.Function.SameSignature.map_name hm.functions]
    exact h.values
  · rw [hbare]
    exact forall₂_membersOf_same h.members (forall₂_numbered_same hm.models)

/-- Definitions that declare the same are at the same places. -/
theorem forall₂_definitions_same : List.Forall₂ (fun x y => y.1 = x.1 ∧ x.2.SameSignature y.2)
    (definitions m) (definitions m') := by
  unfold definitions
  refine List.rel_append ?_ ?_
  · refine List.forall₂_map_left_iff.mpr (List.forall₂_map_right_iff.mpr ?_)
    exact hm.functions.imp fun _ _ hf => ⟨rfl, hf⟩
  · refine List.rel_flatMap (forall₂_numbered_same hm.models) ?_
    rintro ⟨id, md⟩ ⟨_, md'⟩ ⟨rfl, hmd⟩
    refine List.forall₂_map_left_iff.mpr (List.forall₂_map_right_iff.mpr ?_)
    exact hmd.methods.imp fun _ _ hf => ⟨rfl, hf⟩

end Same

/-! ## Blocks -/

/-- The block that a callable is made from. -/
def blockOf? (m : Syntax.Module) : Callable → Option Syntax.Block
  | .function id => ((definitions m)[id.index]?).map (·.2.body)
  | .equality id => (m.models[id.index]?.bind (·.equality)).map (·.body)
  | .hashing id => m.models[id.index]?.bind (·.hashing)

theorem isSome_blockOf?_same {m m' : Syntax.Module} (hm : m.SameSignatures m')
    (callable : Callable) : (blockOf? m' callable).isSome = (blockOf? m callable).isSome := by
  have hmodels (id : ModelId) := rel_getElem?_of_forall₂ hm.models id.index
  cases callable with
  | function id =>
    have hrel := rel_getElem?_of_forall₂ (forall₂_definitions_same hm) id.index
    rw [blockOf?, blockOf?, Option.isSome_map, Option.isSome_map]
    generalize (definitions m)[id.index]? = x, (definitions m')[id.index]? = y at hrel
    cases hrel <;> rfl
  | equality id =>
    have hrel := hmodels id
    rw [blockOf?, blockOf?, Option.isSome_map, Option.isSome_map]
    generalize m.models[id.index]? = x, m'.models[id.index]? = y at hrel
    cases hrel with
    | none => rfl
    | some hmd =>
      have hother := congrArg Option.isSome hmd.equality
      rw [Option.isSome_map, Option.isSome_map] at hother
      exact hother
  | hashing id =>
    have hrel := hmodels id
    rw [blockOf?, blockOf?]
    generalize m.models[id.index]? = x, m'.models[id.index]? = y at hrel
    cases hrel with
    | none => rfl
    | some hmd => exact hmd.hashing

end Scribe.Lowering
