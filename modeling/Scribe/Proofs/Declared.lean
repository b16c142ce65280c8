import Mathlib.Data.List.Nodup
import Scribe.Proofs.Tables

/-!
# Declared programs

Lowering declares everything before it lowers a body. What it has then is a skeleton
(`Program.Skeleton`): all signatures and constants are there and sound, no body and no local is.
That can be read off the tables, entry by entry (`Declares.model`, `Declares.rel_function`), and one
piece of work is left for each free function and one for each model (`Declares.outline`).
-/

namespace Scribe.Core

open Scribe.Lowering

/-- The constants of a program are sound, each where the constants before it may be used. -/
def Program.ConstantsSound (p : Program) : Prop :=
  ∀ id c, p.getConstant? id = some c →
    c.value.All (Expr.Sound p (.ofConstant id)) ∧ typeOf p c.value = .ok c.type

/-- A program of signatures and constants: no bodies, no overrides and no locals yet. The methods
of a model are the functions that it owns. -/
structure Program.Skeleton (p : Program) : Prop where
  signatures : p.Signatures
  constants : p.ConstantsSound
  locals : p.locals = #[]
  bodies : ∀ {id f}, p.getFunction? id = some f → f.body = []
  overrides : ∀ {id m}, p.getModel? id = some m → m.equality = none ∧ m.hashing = none
  nodup : ∀ {id m}, p.getModel? id = some m → (m.methods.map (·.function)).Nodup
  owned : ∀ {id f}, p.getFunction? id = some f → ∀ {model}, f.owner = some model →
      ∃ m, p.getModel? model = some m ∧ ∃ x ∈ m.methods, x.function = id

theorem Program.ConstantsSound.grows {p p' : Program} (h : p.ConstantsSound) (hg : p.Grows p')
    (hconstants : p'.constants = p.constants) : p'.ConstantsSound := by
  intro id c hc
  have hold : p.getConstant? id = some c := by
    unfold Program.getConstant? at hc ⊢
    rw [← hconstants]
    exact hc
  obtain ⟨hall, ht⟩ := h id c hold
  exact ⟨hall.grows hg (.refl _), typeOf_grows hg _ ht⟩

end Scribe.Core

namespace Scribe.Lowering

open Scribe.Core

/-! ## Constants -/

theorem getConstant?_withConstants {p : Program} {k : Constant} {id : ConstantId} {c : Constant} :
    (p.withConstants [k]).getConstant? id = some c ↔
      p.getConstant? id = some c ∨ id = ⟨p.constants.size⟩ ∧ c = k := by
  have hpush : p.constants ++ [k].toArray = p.constants.push k := by simp
  rw [Program.getConstant?, Program.withConstants, hpush]
  constructor
  · intro hc
    obtain hold | ⟨hindex, rfl⟩ := getElem?_push_cases hc
    · exact .inl hold
    · exact .inr ⟨congrArg ConstantId.mk hindex, rfl⟩
  · rintro (hold | ⟨rfl, rfl⟩)
    · exact getElem?_push_of_some hold k
    · exact Array.getElem?_push_size

theorem withConstants_indexed {p : Program} {k : Constant} (hp : p.Indexed)
    (hfresh : k.name ∉ p.valueNames) : (p.withConstants [k]).Indexed := by
  refine ⟨hp.constants.append (fun h => hfresh (List.mem_append_left _ h)) fun name id => ?_,
    hp.functions, hp.models, hp.fields, hp.methods⟩
  simp only [getConstant?_withConstants, or_and_right, exists_or, and_assoc, exists_and_left,
    exists_eq_left]
  exact or_congr_right ⟨fun h => ⟨h.2.symm, h.1⟩, fun h => ⟨h.2, h.1.symm⟩⟩

/-- A new constant may use those before it. -/
theorem Elab.withConstants_sound {p : Program} {k : Syntax.Constant} {k' : Constant}
    (hvalue : Elab p [.program] k.value k'.value) (hform : isConstantForm k.value = true)
    (htype : typeOf p k'.value = .ok k'.type) (hfresh : k'.name ∉ p.valueNames)
    (hp : p.Signatures) (hconstants : p.ConstantsSound) :
    (p.withConstants [k']).Signatures ∧ (p.withConstants [k']).ConstantsSound := by
  have hg : p.Grows (p.withConstants [k']) := withConstants_grows _
  have hfits : Context.Fits (.ofConstant ⟨p.constants.size⟩) ⟨p, [.program]⟩ :=
    ⟨hp, List.forall_mem_singleton.mpr trivial, Nat.le_refl _⟩
  have hall := hvalue.sound (c := ⟨p, [.program]⟩) hfits fun _ => hform
  refine ⟨.of_grows hg (withConstants_indexed hp.indexed hfresh) ?_ hp.parameters hp.returnType
    hp.owner hp.fields hp.methods hp.locals, ?_⟩
  · intro id c hc
    obtain hold | ⟨_, rfl⟩ := getConstant?_withConstants.mp hc
    · exact hp.constants hold
    · exact hall.known htype
  · intro id c hc
    obtain hold | ⟨rfl, rfl⟩ := getConstant?_withConstants.mp hc
    · obtain ⟨hall', htype'⟩ := hconstants id c hold
      exact ⟨hall'.grows hg (.refl _), typeOf_grows hg _ htype'⟩
    · exact ⟨hall.grows hg (.refl _), typeOf_grows hg _ htype⟩

theorem ConstantsOf.sound {p : Program} {ks : List Syntax.Constant} {ks' : List Constant}
    (h : ConstantsOf p ks ks') (hp : p.Signatures) (hconstants : p.ConstantsSound) :
    (p.withConstants ks').Signatures ∧ (p.withConstants ks').ConstantsSound := by
  induction h with
  | nil =>
    rw [withConstants_nil]
    exact ⟨hp, hconstants⟩
  | @cons p k k' ks ks' hvalid hname hform hvalue htype hfresh hks ih =>
    obtain ⟨hp', hconstants'⟩ :=
      hvalue.withConstants_sound hform htype (hname ▸ hfresh) hp hconstants
    have hsound := ih hp' hconstants'
    rwa [withConstants_withConstants] at hsound

/-- Models without members have nothing that could be wrong. -/
theorem bareProgram_sound (name : String) {mds : List Syntax.Model}
    (hnodup : (mds.map (·.name)).Nodup) :
    (bareProgram name mds).Signatures ∧ (bareProgram name mds).ConstantsSound := by
  have hbare {id : ModelId} {m : Model} (hm : (bareProgram name mds).getModel? id = some m) :
      ∃ name, m = { name } := by
    rw [Program.getModel?, bareProgram, List.getElem?_toArray, List.getElem?_map,
      Option.map_eq_some_iff] at hm
    obtain ⟨md, _, rfl⟩ := hm
    exact ⟨md.name, rfl⟩
  have hnone {α : Type} {i : Nat} {x : α} (h : (#[] : Array α)[i]? = some x) : False := by
    rw [Array.getElem?_empty] at h
    cases h
  have hindexed : (bareProgram name mds).Indexed := by
    refine ⟨NameMap.indexes_nil ?_, NameMap.indexes_nil ?_, ?_, ?_, ?_⟩
    · rintro _ _ ⟨_, h, _⟩
      exact hnone h
    · rintro _ _ ⟨_, h, _⟩
      exact hnone h
    · refine (NameMap.indexes_ofNames (fun _ => rfl) (fun _ => rfl) hnodup).congr fun name id => ?_
      rw [Program.getModel?, bareProgram, List.getElem?_toArray, List.getElem?_map]
      simp
    · intro id m hm
      obtain ⟨_, rfl⟩ := hbare hm
      exact NameMap.indexes_nil (by simp)
    · intro id m hm
      obtain ⟨_, rfl⟩ := hbare hm
      exact NameMap.indexes_nil (by simp)
  refine ⟨⟨hindexed, fun h => (hnone h).elim, fun h => (hnone h).elim, fun h => (hnone h).elim,
    fun h => (hnone h).elim, ?_, ?_, fun h => (hnone h).elim⟩, fun _ _ h => (hnone h).elim⟩
  · intro id m hm
    obtain ⟨_, rfl⟩ := hbare hm
    exact List.forall_mem_nil _
  · intro id m hm
    obtain ⟨_, rfl⟩ := hbare hm
    exact List.forall_mem_nil _

/-! ## Places in the tables -/

variable {α β : Type} {m : Syntax.Module}

variable {R : α → β → Prop} {xs : List α} {ys : List β} {x : Option α} {y : Option β}

theorem exists_left_of_forall₂ (h : List.Forall₂ R xs ys) {y : β} (hy : y ∈ ys) :
    ∃ x ∈ xs, R x y := by
  induction h with
  | nil => cases hy
  | @cons x _ xs _ hx _ ih =>
    obtain rfl | hy := List.mem_cons.mp hy
    · exact ⟨x, List.mem_cons_self, hx⟩
    · obtain ⟨x', hx', hR⟩ := ih hy
      exact ⟨x', List.mem_cons_of_mem _ hx', hR⟩

theorem rel_getElem?_of_forall₂ (h : List.Forall₂ R xs ys) (i : ℕ) :
    Option.Rel R xs[i]? ys[i]? := by
  induction h generalizing i with
  | nil => exact .none
  | cons hx _ ih =>
    cases i with
    | zero => exact .some hx
    | succ i => exact ih i

theorem rel_eq_some_left (h : Option.Rel R x y) {a : α} (ha : x = some a) :
    ∃ b, y = some b ∧ R a b := by
  cases h with
  | some hR =>
    cases ha
    exact ⟨_, rfl, hR⟩
  | none => cases ha

theorem rel_eq_some_right (h : Option.Rel R x y) {b : β} (hb : y = some b) :
    ∃ a, x = some a ∧ R a b := by
  cases h with
  | some hR =>
    cases hb
    exact ⟨_, rfl, hR⟩
  | none => cases hb

section Declared

variable {m : Syntax.Module} {ts : Tables} {i : Nat} {md : Syntax.Model}
  {mds : List Syntax.Model} {n : Nat}

variable {xs : List (List Field × List Function)} {fs : List Syntax.Function} {f : Syntax.Function}

theorem getElem?_modelsFrom {x : List Field × List Function} (hmd : mds[i]? = some md)
    (hx : xs[i]? = some x) :
    ∃ k, (modelsFrom n mds xs)[i]? = some (modelOf (n + k) md x.1) ∧
      ∀ {j g}, x.2[j]? = some g → (xs.flatMap (·.2))[k + j]? = some g := by
  induction i generalizing n mds xs with
  | zero =>
    cases mds with
    | nil => cases hmd
    | cons _ mds =>
      cases xs with
      | nil => cases hx
      | cons _ xs =>
        cases hmd
        cases hx
        refine ⟨0, rfl, ?_⟩
        intro j g hg
        obtain ⟨hlt, _⟩ := List.getElem?_eq_some_iff.mp hg
        rw [List.flatMap_cons, Nat.zero_add, List.getElem?_append_left hlt]
        exact hg
  | succ i ih =>
    cases mds with
    | nil => cases hmd
    | cons _ mds =>
      cases xs with
      | nil => cases hx
      | cons y xs =>
        obtain ⟨k, hmodel, hfunctions⟩ := ih (n := n + y.2.length) hmd hx
        refine ⟨y.2.length + k, ?_, ?_⟩
        · rw [← Nat.add_assoc]
          exact hmodel
        · intro j g hg
          rw [List.flatMap_cons, List.getElem?_append_right (by omega)]
          rw [show y.2.length + k + j - y.2.length = k + j by omega]
          exact hfunctions hg

theorem mem_functionWork (h : fs[i]? = some f) :
    Deferred.ofFunction ⟨n + i⟩ f.body ∈ functionWork n fs := by
  induction fs generalizing n i with
  | nil => cases h
  | cons g fs ih =>
    cases i with
    | zero =>
      cases h
      exact List.mem_cons_self
    | succ i =>
      have hrest := ih (n := n + 1) h
      rw [show n + 1 + i = n + (i + 1) by omega] at hrest
      exact List.mem_cons_of_mem _ hrest

theorem getElem?_numbered (h : mds[i]? = some md) : (numbered mds)[i]? = some (⟨i⟩, md) := by
  obtain ⟨hlt, _⟩ := List.getElem?_eq_some_iff.mp h
  unfold numbered modelIds
  rw [List.getElem?_zip_eq_some]
  refine ⟨?_, h⟩
  rw [List.getElem?_map, List.getElem?_range' hlt]
  simp

/-- Methods are known to their model under the names and with the ids of its functions. -/
theorem forall₂_methodsFrom {p : Program} {R : Syntax.Function → Function → Prop}
    {gs : List Function}
    (hget : ∀ {j g}, gs[j]? = some g → p.getFunction? ⟨n + j⟩ = some g)
    (h : List.Forall₂ R fs gs) :
    List.Forall₂ (fun f x => x.name = f.name ∧ ∃ g, p.getFunction? x.function = some g ∧ R f g) fs
      (methodsFrom n fs) := by
  induction h generalizing n with
  | nil => exact .nil
  | @cons f g fs gs hg _ ih =>
    refine .cons ⟨rfl, g, hget (j := 0) rfl, hg⟩ (ih ?_)
    intro j g' hg'
    have hnext := hget (j := j + 1) hg'
    rw [show n + (j + 1) = n + 1 + j by omega] at hnext
    exact hnext

theorem functions_methodsFrom (n : Nat) (fs : List Syntax.Function) :
    (methodsFrom n fs).map (·.function) = (List.range' n fs.length).map FunctionId.mk := by
  induction fs generalizing n with
  | nil => rfl
  | cons f fs ih => rw [methodsFrom, List.map_cons, ih, List.length_cons, List.range'_succ,
      List.map_cons]

theorem modelNames_modelsFrom (h : mds.length = xs.length) :
    (modelsFrom n mds xs).map (·.name) = mds.map (·.name) := by
  induction mds generalizing n xs with
  | nil => rfl
  | cons md mds ih =>
    cases xs with
    | nil => cases h
    | cons x xs =>
      rw [modelsFrom, List.map_cons, List.map_cons, ih (Nat.succ.inj h)]
      rfl

theorem length_numbered (mds : List Syntax.Model) : (numbered mds).length = mds.length := by
  simp [numbered, modelIds]

theorem Declares.length_members (h : Declares m ts) : m.models.length = ts.members.length := by
  rw [← h.members.length_eq, length_numbered]

/-- What a declared model is in the tables. -/
theorem Declares.model (h : Declares m ts) (hmd : m.models[i]? = some md) :
    ∃ fields n, (declaredProgram m ts).getModel? ⟨i⟩ = some (modelOf n md fields) ∧
      List.Forall₂ (FieldOf (bareProgram m.name m.models)) md.fields fields ∧
      (md.fields.map (·.name) ++ md.methods.map (·.name)).Nodup ∧
      List.Forall₂ (fun f x => x.name = f.name ∧
        ∃ g, (declaredProgram m ts).getFunction? x.function = some g ∧
          Undefined (bareProgram m.name m.models) (some ⟨i⟩) f g) md.methods
        (methodsFrom n md.methods) := by
  have hnumber := getElem?_numbered hmd
  obtain ⟨hlt, hfst⟩ := List.getElem?_eq_some_iff.mp hnumber
  have hlt' : i < ts.members.length := by
    rw [← h.members.length_eq]
    exact hlt
  have hx : ts.members[i]? = some ts.members[i] := List.getElem?_eq_getElem hlt'
  have hof := h.members.get hlt hlt'
  rw [List.get_eq_getElem, List.get_eq_getElem] at hof
  simp only [hfst] at hof
  obtain ⟨k, hmodel, hfunctions⟩ := getElem?_modelsFrom (n := ts.functions.length) hmd hx
  refine ⟨ts.members[i].1, ts.functions.length + k, ?_, hof.fields, hof.distinct,
    forall₂_methodsFrom ?_ hof.methods⟩
  · show (modelsFrom ts.functions.length m.models ts.members).toArray[i]? = _
    rw [List.getElem?_toArray, hmodel]
  · intro j g hg
    show (ts.functions ++ ts.members.flatMap (·.2)).toArray[ts.functions.length + k + j]? = some g
    rw [List.getElem?_toArray, List.getElem?_append_right (by omega)]
    rw [show ts.functions.length + k + j - ts.functions.length = k + j by omega]
    exact hfunctions hg

/-- What a declared free function is in the tables. -/
theorem Declares.function (h : Declares m ts) (hf : m.functions[i]? = some f) :
    ∃ g, (declaredProgram m ts).getFunction? ⟨i⟩ = some g ∧
      Undefined (bareProgram m.name m.models) none f g := by
  obtain ⟨hlt, hget⟩ := List.getElem?_eq_some_iff.mp hf
  have hlt' : i < ts.functions.length := by
    rw [← h.functions.length_eq]
    exact hlt
  have hof := h.functions.get hlt hlt'
  rw [List.get_eq_getElem, List.get_eq_getElem, hget] at hof
  refine ⟨ts.functions[i], ?_, hof⟩
  show (ts.functions ++ ts.members.flatMap (·.2)).toArray[i]? = some ts.functions[i]
  rw [List.getElem?_toArray, List.getElem?_append_left hlt', List.getElem?_eq_getElem hlt']

/-- Declaring functions and members after the constants only adds to the tables. -/
theorem Declares.grows (h : Declares m ts) :
    ((bareProgram m.name m.models).withConstants ts.constants).Grows (declaredProgram m ts) := by
  refine ⟨?_, ?_, ?_, fun hl => hl⟩
  · intro id k hk
    simpa [Program.withConstants, bareProgram, declaredProgram, Program.getConstant?] using hk
  · intro id f hf
    cases hf
  · intro id model hmodel
    change (m.models.map fun md => ({ name := md.name } : Model)).toArray[id.index]? = _ at hmodel
    rw [List.getElem?_toArray, List.getElem?_map, Option.map_eq_some_iff] at hmodel
    obtain ⟨md, hmd, rfl⟩ := hmodel
    obtain ⟨fields, n, hget, _⟩ := h.model hmd
    exact ⟨_, hget, rfl, List.nil_prefix, List.nil_prefix, by rintro _ ⟨⟩⟩

end Declared

/-! ### Functions by owner and name -/

/-- The functions of a module in the order of their table: the free functions, and the methods of
one model after the other. -/
def definitions (m : Syntax.Module) : List (Option ModelId × Syntax.Function) :=
  m.functions.map (none, ·) ++
    (numbered m.models).flatMap fun x => x.2.methods.map (some x.1, ·)

/-- Functions of the same owner have different names. -/
structure Distinct (m : Syntax.Module) : Prop where
  functions : (m.functions.map (·.name)).Nodup
  methods : ∀ md ∈ m.models, (md.methods.map (·.name)).Nodup

theorem mem_numbered {mds : List Syntax.Model} {id : ModelId} {md : Syntax.Model} :
    (id, md) ∈ numbered mds ↔ mds[id.index]? = some md := by
  constructor
  · intro h
    obtain ⟨i, hi⟩ := List.mem_iff_getElem?.mp h
    unfold numbered modelIds at hi
    rw [List.getElem?_zip_eq_some, List.getElem?_map, Option.map_eq_some_iff] at hi
    obtain ⟨⟨j, hj, rfl⟩, hmd⟩ := hi
    obtain ⟨hlt, hrange⟩ := List.getElem?_eq_some_iff.mp hj
    rw [List.getElem_range'] at hrange
    rw [← hrange]
    simpa using hmd
  · intro h
    exact List.mem_of_getElem? (getElem?_numbered h)

theorem mem_definitions {owner : Option ModelId} {f : Syntax.Function} :
    (owner, f) ∈ definitions m ↔ (owner = none ∧ f ∈ m.functions) ∨
      ∃ i md, m.models[i]? = some md ∧ owner = some ⟨i⟩ ∧ f ∈ md.methods := by
  unfold definitions
  rw [List.mem_append, List.mem_map, List.mem_flatMap]
  constructor
  · rintro (⟨g, hg, heq⟩ | ⟨⟨id, md⟩, hx, hf⟩)
    · cases heq
      exact .inl ⟨rfl, hg⟩
    · obtain ⟨g, hg, heq⟩ := List.mem_map.mp hf
      cases heq
      exact .inr ⟨id.index, md, mem_numbered.mp hx, rfl, hg⟩
  · rintro (⟨rfl, hf⟩ | ⟨i, md, hmd, rfl, hf⟩)
    · exact .inl ⟨f, hf, rfl⟩
    · exact .inr ⟨(⟨i⟩, md), mem_numbered.mpr hmd, List.mem_map.mpr ⟨f, hf, rfl⟩⟩

theorem nodup_fst_numbered (mds : List Syntax.Model) : ((numbered mds).map (·.1)).Nodup := by
  rw [numbered, List.map_fst_zip (by simp [modelIds]), modelIds]
  exact (List.nodup_range' 1).map fun i j h => ModelId.mk.inj h

theorem nodup_keys (h : Distinct m) : ((definitions m).map fun x => (x.1, x.2.name)).Nodup := by
  have hfunctions : (m.functions.map fun f => ((none : Option ModelId), f.name)).Nodup := by
    have hinj : Function.Injective fun name : String => ((none : Option ModelId), name) :=
      fun a b hab => (Prod.mk.inj hab).2
    have hmap := h.functions.map hinj
    rw [List.map_map] at hmap
    exact hmap
  have hmethods : ((numbered m.models).flatMap fun x =>
      x.2.methods.map fun f => (some x.1, f.name)).Nodup := by
    refine List.nodup_flatMap.mpr ⟨?_, ?_⟩
    · rintro ⟨id, md⟩ hx
      have hinj : Function.Injective fun name : String => (some id, name) :=
        fun a b hab => (Prod.mk.inj hab).2
      have hmap := (h.methods md (List.mem_of_getElem? (mem_numbered.mp hx))).map hinj
      rw [List.map_map] at hmap
      exact hmap
    · refine (List.pairwise_map.mp (nodup_fst_numbered m.models)).imp ?_
      intro x y hne k hk hk'
      obtain ⟨f, _, rfl⟩ := List.mem_map.mp hk
      obtain ⟨g, _, heq⟩ := List.mem_map.mp hk'
      exact hne (Option.some.inj (Prod.mk.inj heq).1).symm
  unfold definitions
  rw [List.map_append, List.map_map, List.map_flatMap]
  simp only [List.map_map]
  refine List.nodup_append.mpr ⟨hfunctions, hmethods, ?_⟩
  rintro _ hk _ hk' rfl
  obtain ⟨f, _, rfl⟩ := List.mem_map.mp hk
  obtain ⟨x, _, hx⟩ := List.mem_flatMap.mp hk'
  obtain ⟨g, _, heq⟩ := List.mem_map.mp hx
  cases (Prod.mk.inj heq).1

theorem Distinct.index_eq (h : Distinct m) {i j : ℕ} {x y : Option ModelId × Syntax.Function}
    (hx : (definitions m)[i]? = some x) (hy : (definitions m)[j]? = some y) (howner : x.1 = y.1)
    (hname : x.2.name = y.2.name) : i = j := by
  refine (List.getElem?_inj ?_ (nodup_keys h)).mp ?_
  · rw [List.length_map]
    exact (List.getElem?_eq_some_iff.mp hx).1
  · rw [List.getElem?_map, List.getElem?_map, hx, hy, Option.map_some, Option.map_some, howner,
      hname]

section Declared

variable {m : Syntax.Module} {ts : Tables} (h : Declares m ts)

include h

/-- The table of functions, entry by entry. -/
theorem Declares.forall₂_definitions :
    List.Forall₂ (fun x g => Undefined (bareProgram m.name m.models) x.1 x.2 g) (definitions m)
      (ts.functions ++ ts.members.flatMap (·.2)) := by
  have hfunctions : List.Forall₂ (fun x g => Undefined (bareProgram m.name m.models) x.1 x.2 g)
      (m.functions.map (none, ·)) ts.functions := List.forall₂_map_left_iff.mpr h.functions
  have hmethods : List.Forall₂ (fun x g => Undefined (bareProgram m.name m.models) x.1 x.2 g)
      ((numbered m.models).flatMap fun x => x.2.methods.map (some x.1, ·))
      (ts.members.flatMap (·.2)) := by
    refine List.rel_flatMap h.members ?_
    intro x y hx
    exact List.forall₂_map_left_iff.mpr hx.methods
  exact List.rel_append hfunctions hmethods

/-- What stands at a place in the table of functions. -/
theorem Declares.rel_function (i : ℕ) :
    Option.Rel (fun x g => Undefined (bareProgram m.name m.models) x.1 x.2 g) (definitions m)[i]?
      ((declaredProgram m ts).getFunction? ⟨i⟩) := by
  have hrel := rel_getElem?_of_forall₂ h.forall₂_definitions i
  rw [Program.getFunction?, declaredProgram, List.getElem?_toArray]
  exact hrel

theorem Declares.distinct : Distinct m := by
  refine ⟨(List.nodup_append.mp h.values).2.1, ?_⟩
  intro md hmd
  obtain ⟨i, hi⟩ := List.mem_iff_getElem?.mp hmd
  obtain ⟨_, _, _, _, hdistinct, _⟩ := h.model hi
  exact (List.nodup_append.mp hdistinct).2.1

theorem Declares.model_of_getModel? {id : ModelId} {model : Model}
    (hm : (declaredProgram m ts).getModel? id = some model) :
    ∃ md, m.models[id.index]? = some md := by
  have hsize : (modelsFrom ts.functions.length m.models ts.members).length = m.models.length := by
    have hnames := congrArg List.length
      (modelNames_modelsFrom (n := ts.functions.length) h.length_members)
    rwa [List.length_map, List.length_map] at hnames
  obtain ⟨hlt, _⟩ := Array.getElem?_eq_some_iff.mp hm
  rw [declaredProgram, List.size_toArray, hsize] at hlt
  exact ⟨_, List.getElem?_eq_getElem hlt⟩

/-- What stands at a place in the table of models. -/
theorem Declares.rel_model (i : ℕ) :
    Option.Rel (fun md model => model.name = md.name ∧
        List.Forall₂ (FieldOf (bareProgram m.name m.models)) md.fields model.fields)
      m.models[i]? ((declaredProgram m ts).getModel? ⟨i⟩) := by
  cases hmd : m.models[i]? with
  | none =>
    cases hmodel : (declaredProgram m ts).getModel? ⟨i⟩ with
    | none => exact .none
    | some model =>
      obtain ⟨md, hmd'⟩ := h.model_of_getModel? hmodel
      cases hmd.symm.trans hmd'
  | some md =>
    obtain ⟨fields, n, hmodel, hfields, _⟩ := h.model hmd
    rw [hmodel]
    exact .some ⟨rfl, hfields⟩

theorem Declares.function_unique {i j : FunctionId} {f g : Function}
    (hf : (declaredProgram m ts).getFunction? i = some f)
    (hg : (declaredProgram m ts).getFunction? j = some g)
    (howner : f.owner = g.owner) (hname : f.name = g.name) : i = j := by
  obtain ⟨x, hx, hfx⟩ := rel_eq_some_right (h.rel_function i.index) hf
  obtain ⟨y, hy, hgy⟩ := rel_eq_some_right (h.rel_function j.index) hg
  have hindex : i.index = j.index := by
    refine h.distinct.index_eq hx hy ?_ ?_
    · rw [← hfx.signature.owner, howner, hgy.signature.owner]
    · rw [← hfx.signature.name, hname, hgy.signature.name]
  cases i
  cases j
  exact congrArg FunctionId.mk hindex

/-- A function with an owner is one of its methods. -/
theorem Declares.owned {id : FunctionId} {g : Function}
    (hg : (declaredProgram m ts).getFunction? id = some g) {model : ModelId}
    (howner : g.owner = some model) :
    ∃ md, m.models[model.index]? = some md ∧
      ∃ mm, (declaredProgram m ts).getModel? model = some mm ∧
        ∃ x ∈ mm.methods, x.name = g.name ∧ x.function = id := by
  obtain ⟨x, hx, hof⟩ := rel_eq_some_right (h.rel_function id.index) hg
  have hmem : (x.1, x.2) ∈ definitions m := List.mem_of_getElem? hx
  rcases mem_definitions.mp hmem with ⟨hnone, _⟩ | ⟨i, md, hmd, hi, hf⟩
  · rw [← hof.signature.owner, howner] at hnone
    cases hnone
  · rw [← hof.signature.owner, howner] at hi
    cases hi
    obtain ⟨fields, n, hmodel, _, _, hmethods⟩ := h.model hmd
    obtain ⟨y, hy, hname, g', hg', hof'⟩ := exists_left_of_forall₂ hmethods.flip hf
    -- there is only one function of that owner and that name
    have hnames : y.name = g.name := hname.trans hof.signature.name.symm
    refine ⟨md, hmd, _, hmodel, y, hy, hnames, h.function_unique hg' hg ?_ ?_⟩
    · rw [hof'.signature.owner, howner]
    · rw [hof'.signature.name, hof.signature.name]

/-! ## Skeletons -/

theorem Declares.constants_sound :
    ((bareProgram m.name m.models).withConstants ts.constants).Signatures ∧
      ((bareProgram m.name m.models).withConstants ts.constants).ConstantsSound := by
  obtain ⟨hp, hconstants⟩ := bareProgram_sound m.name h.models
  exact h.constants.sound hp hconstants

theorem Declares.functions_free {id : FunctionId} {f : Function} :
    (declaredProgram m ts).getFunction? id = some f ∧ f.owner = none ↔
      ts.functions[id.index]? = some f := by
  show (ts.functions ++ ts.members.flatMap (·.2)).toArray[id.index]? = some f ∧ _ ↔ _
  rw [List.getElem?_toArray]
  constructor
  · rintro ⟨hf, howner⟩
    by_cases hlt : id.index < ts.functions.length
    · rwa [List.getElem?_append_left hlt] at hf
    · rw [List.getElem?_append_right (Nat.le_of_not_lt hlt)] at hf
      obtain ⟨y, hy, hmem⟩ := List.mem_flatMap.mp (List.mem_of_getElem? hf)
      obtain ⟨x, _, hof⟩ := exists_left_of_forall₂ h.members hy
      obtain ⟨_, _, hmethod⟩ := exists_left_of_forall₂ hof.methods hmem
      cases hmethod.signature.owner.symm.trans howner
  · intro hf
    obtain ⟨_, _, hof⟩ := exists_left_of_forall₂ h.functions (List.mem_of_getElem? hf)
    rw [List.getElem?_append_left (List.getElem?_eq_some_iff.mp hf).1]
    exact ⟨hf, hof.signature.owner⟩

/-- Names that were declared are all there is in the name maps. -/
theorem Declares.indexed : (declaredProgram m ts).Indexed := by
  obtain ⟨hconstants, hfunctions, _⟩ := List.nodup_append.mp h.values
  refine ⟨?_, ?_, ?_, ?_, ?_⟩
  · rw [← h.constants.names.1] at hconstants
    refine (NameMap.indexes_ofNames (fun _ => rfl) (fun _ => rfl) hconstants).congr fun name id => ?_
    rw [Program.getConstant?, declaredProgram, List.getElem?_toArray]
  · rw [← map_of_forall₂ (h.functions.imp fun _ _ hg => hg.signature.name)] at hfunctions
    refine (NameMap.indexes_ofNames (fun _ => rfl) (fun _ => rfl) hfunctions).congr fun name id => ?_
    simp only [← and_assoc, h.functions_free]
  · refine (NameMap.indexes_ofNames (fun _ => rfl) (fun _ => rfl) h.models).congr fun name id => ?_
    constructor
    · rintro ⟨md, hmd, rfl⟩
      obtain ⟨model, hmodel, hname, _⟩ := rel_eq_some_left (h.rel_model id.index) hmd
      exact ⟨model, hmodel, hname⟩
    · rintro ⟨model, hmodel, rfl⟩
      obtain ⟨md, hmd, hname, _⟩ := rel_eq_some_right (h.rel_model id.index) hmodel
      exact ⟨md, hmd, hname.symm⟩
  all_goals
    intro id model hmodel
    obtain ⟨md, hmd⟩ := h.model_of_getModel? hmodel
    obtain ⟨fields, n, hget, hfields, hdistinct, hmethods⟩ := h.model hmd
    obtain ⟨hnodup, hnodup', _⟩ := List.nodup_append.mp hdistinct
    cases hmodel.symm.trans hget
  · rw [← FieldOf.map_name hfields] at hnodup
    exact @NameMap.indexes_ofNames _ _ _ _ (fun i => i) (fun i => i) (fun _ => rfl) (fun _ => rfl)
      hnodup
  · rw [← map_of_forall₂ (hmethods.imp fun _ _ hx => hx.1)] at hnodup'
    refine ⟨by rw [NameMap.names, modelOf, List.map_map]; exact hnodup', fun name function => ?_⟩
    simp only [modelOf, List.mem_map, Prod.mk.injEq]
    constructor
    · rintro ⟨x, hx, rfl, rfl⟩
      exact hx
    · exact fun hx => ⟨_, hx, rfl, rfl⟩

theorem Declares.signatures : (declaredProgram m ts).Signatures := by
  have hgrows := (withConstants_grows (p := bareProgram m.name m.models) ts.constants).trans h.grows
  have hbare := (bareProgram_sound m.name h.models).1.indexed
  have hknown {t : Syntax.TypeExpr} {t' : Ty}
      (ht : lowerValueType (bareProgram m.name m.models) t = .ok t') :
      t'.Known (declaredProgram m ts) ∧ t'.Valued := by
    obtain ⟨ht, hvoid⟩ := lowerValueType_eq_ok.mp ht
    exact ⟨(lowerType_known hbare ht).grows hgrows, lowerType_valued ht hvoid⟩
  refine ⟨h.indexed, ?_, ?_, ?_, ?_, ?_, ?_, ?_⟩
  · intro id c hc
    have hc' :
        ((bareProgram m.name m.models).withConstants ts.constants).getConstant? id = some c := by
      simpa [Program.withConstants, bareProgram, declaredProgram, Program.getConstant?] using hc
    exact (h.constants_sound.1.constants hc').grows h.grows
  · intro id f hf q hq
    obtain ⟨x, _, hof⟩ := rel_eq_some_right (h.rel_function id.index) hf
    obtain ⟨q0, _, hparameter⟩ := exists_left_of_forall₂ hof.signature.parameters hq
    exact hknown hparameter.type
  · intro id f hf
    obtain ⟨x, _, hof⟩ := rel_eq_some_right (h.rel_function id.index) hf
    exact (lowerType_known hbare hof.signature.returnType).grows hgrows
  · intro id f hf model howner
    obtain ⟨_, _, mm, hmm, _⟩ := h.owned hf howner
    exact ⟨mm, hmm⟩
  · intro id mm hmm field hfield
    obtain ⟨md, hmd⟩ := h.model_of_getModel? hmm
    obtain ⟨fields, n, hmodel, hfields, _⟩ := h.model hmd
    cases hmm.symm.trans hmodel
    obtain ⟨_, _, hof⟩ := exists_left_of_forall₂ hfields hfield
    exact hknown hof.type
  · intro id mm hmm x hx
    obtain ⟨md, hmd⟩ := h.model_of_getModel? hmm
    obtain ⟨fields, n, hmodel, _, _, hmethods⟩ := h.model hmd
    cases hmm.symm.trans hmodel
    obtain ⟨_, _, _, g, hg, hof⟩ := exists_left_of_forall₂ hmethods hx
    exact ⟨g, hg, hof.signature.owner⟩
  · rintro id l ⟨⟩

/-- Declaring a module gives a skeleton. -/
theorem Declares.skeleton : (declaredProgram m ts).Skeleton := by
  have hmodels {id : ModelId} {mm : Model}
      (hmm : (declaredProgram m ts).getModel? id = some mm) :
      ∃ md fields n, mm = modelOf n md fields := by
    obtain ⟨md, hmd⟩ := h.model_of_getModel? hmm
    obtain ⟨fields, n, hmodel, _⟩ := h.model hmd
    exact ⟨md, fields, n, Option.some.inj (hmm.symm.trans hmodel)⟩
  refine ⟨h.signatures, h.constants_sound.2.grows h.grows ?_, rfl, ?_, ?_, ?_, ?_⟩
  · simp [Program.withConstants, bareProgram, declaredProgram]
  · intro id f hf
    obtain ⟨x, _, hof⟩ := rel_eq_some_right (h.rel_function id.index) hf
    exact hof.body
  · intro id mm hmm
    obtain ⟨md, fields, n, rfl⟩ := hmodels hmm
    exact ⟨rfl, rfl⟩
  · intro id mm hmm
    obtain ⟨md, fields, n, rfl⟩ := hmodels hmm
    rw [modelOf, functions_methodsFrom]
    exact (List.nodup_range' 1).map fun i j hij => FunctionId.mk.inj hij
  · intro id f hf model howner
    obtain ⟨_, _, mm, hmm, x, hx, _, hfunction⟩ := h.owned hf howner
    exact ⟨mm, hmm, x, hx, hfunction⟩

end Declared

/-! ## Work that is left -/

/-- The callable of a body. -/
def Body.callable : Body → Callable
  | .function id _ | .method id _ => .function id
  | .equality model _ => .equality model
  | .hashing model _ => .hashing model

/-- The callables whose bodies are made by a piece of work: its own, or all that a model owns. -/
def Work.Claims (p : Program) : Work → Callable → Prop
  | .body b, callable => callable = b.callable
  | .members id _, callable => p.owner? callable = some id

/-- No callable is claimed twice. -/
def Apart (p : Program) (ds : List Deferred) : Prop :=
  ds.Pairwise fun d d' => ∀ callable, d.work.Claims p callable → ¬d'.work.Claims p callable

/-- The work that is left when everything is declared: the bodies of free functions and the members
of models. Together they claim every callable, each once. -/
structure Outline (p : Program) (ds : List Deferred) : Prop where
  items : ∀ d ∈ ds,
    (∃ id block f, d = .ofFunction id block ∧ p.getFunction? id = some f ∧ f.owner = none) ∨
    (∃ id m model, d = .ofModel id m ∧ p.getModel? id = some model ∧
      model.methods.length = m.methods.length)
  apart : Apart p ds
  functions : ∀ {id f}, p.getFunction? id = some f → ∃ d ∈ ds, d.work.Claims p (.function id)

theorem exists_of_mem_functionWork {n : ℕ} {fs : List Syntax.Function} {d : Deferred}
    (h : d ∈ functionWork n fs) : ∃ i f, fs[i]? = some f ∧ d = .ofFunction ⟨n + i⟩ f.body := by
  induction fs generalizing n with
  | nil => cases h
  | cons f fs ih =>
    obtain rfl | h := List.mem_cons.mp h
    · exact ⟨0, f, rfl, rfl⟩
    · obtain ⟨i, g, hg, rfl⟩ := ih h
      refine ⟨i + 1, g, hg, ?_⟩
      rw [show n + 1 + i = n + (i + 1) by omega]

theorem functionWork_apart (p : Program) (n : Nat) (fs : List Syntax.Function) :
    Apart p (functionWork n fs) := by
  induction fs generalizing n with
  | nil => exact .nil
  | cons f fs ih =>
    refine List.pairwise_cons.mpr ⟨?_, ih (n + 1)⟩
    intro d hd callable hclaims hclaims'
    -- the functions after this one have larger ids
    obtain ⟨i, g, _, rfl⟩ := exists_of_mem_functionWork hd
    have heq : Callable.function ⟨n⟩ = .function ⟨n + 1 + i⟩ := hclaims.symm.trans hclaims'
    have hindex : n = n + 1 + i := congrArg FunctionId.index (Callable.function.inj heq)
    omega

/-- Declaring a module leaves all bodies as work. -/
theorem Declares.outline {ts : Tables} (h : Declares m ts) :
    Outline (declaredProgram m ts) (declaredWork m) := by
  have hfree {d : Deferred} (hd : d ∈ functionWork 0 m.functions) : ∃ id block f,
      d = .ofFunction id block ∧ (declaredProgram m ts).getFunction? id = some f ∧
        f.owner = none := by
    obtain ⟨i, f, hf, rfl⟩ := exists_of_mem_functionWork hd
    rw [Nat.zero_add]
    obtain ⟨g, hg, hof⟩ := h.function hf
    exact ⟨⟨i⟩, f.body, g, rfl, hg, hof.signature.owner⟩
  refine ⟨?_, ?_, ?_⟩
  · intro d hd
    obtain hd | hd := List.mem_append.mp hd
    · exact .inl (hfree hd)
    · obtain ⟨x, hx, rfl⟩ := List.mem_map.mp hd
      obtain ⟨fields, n, hmodel, _, _, hmethods⟩ := h.model (mem_numbered.mp hx)
      exact .inr ⟨x.1, x.2, _, rfl, hmodel, hmethods.length_eq.symm⟩
  · refine List.pairwise_append.mpr ⟨functionWork_apart _ _ _, ?_, ?_⟩
    · -- two models own nothing in common
      refine List.pairwise_map.mpr ((List.pairwise_map.mp (nodup_fst_numbered m.models)).imp ?_)
      intro x y hne callable hx hy
      exact hne (Option.some.inj (hx.symm.trans hy))
    · -- and no model owns a free function
      intro d hd d' hd' callable hclaims hclaims'
      obtain ⟨id, block, f, rfl, hf, howner⟩ := hfree hd
      obtain ⟨x, _, rfl⟩ := List.mem_map.mp hd'
      have hnone : (declaredProgram m ts).owner? callable = none := by
        rw [show callable = .function id from hclaims, Program.owner?, hf]
        exact howner
      exact absurd (hnone.symm.trans hclaims') (by rintro ⟨⟩)
  · intro id f hf
    obtain ⟨x, hx, hof⟩ := rel_eq_some_right (h.rel_function id.index) hf
    have hmem : (x.1, x.2) ∈ definitions m := List.mem_of_getElem? hx
    cases howner : f.owner with
    | none =>
      rcases mem_definitions.mp hmem with ⟨_, hmem⟩ | ⟨_, _, _, hi, _⟩
      · obtain ⟨j, hj⟩ := List.mem_iff_getElem?.mp hmem
        obtain ⟨g, hg, hof'⟩ := h.function hj
        obtain rfl : ⟨j⟩ = id := h.function_unique hg hf (hof'.signature.owner.trans howner.symm)
          (hof'.signature.name.trans hof.signature.name.symm)
        have hwork := mem_functionWork (n := 0) hj
        rw [Nat.zero_add] at hwork
        exact ⟨_, List.mem_append_left _ hwork, rfl⟩
      · rw [← hof.signature.owner, howner] at hi
        cases hi
    | some model =>
      obtain ⟨md, hmd, _⟩ := h.owned hf howner
      refine ⟨.ofModel model md, List.mem_append_right _
        (List.mem_map.mpr ⟨(model, md), mem_numbered.mpr hmd, rfl⟩), ?_⟩
      show (declaredProgram m ts).owner? (.function id) = some model
      rw [Program.owner?, hf]
      exact howner

end Scribe.Lowering
