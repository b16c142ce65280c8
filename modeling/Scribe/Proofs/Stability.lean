import Scribe.Proofs.Declarations

/-!
# Types stay while a program grows

Lowering changes a program step by step: it declares, it stores bodies, and it gives models an
equality and a hash (`Program.Step`). Some steps write over what was there, but none over what the
typing rules read (`Program.Keeps`). So each answer that they gave is still given after any number
of steps (`types_stable`).
-/

namespace Scribe.Core

/-- A change that lowering makes to a program. -/
inductive Program.Step (p p' : Program) : Prop where
  | declare (d : Declaration) (e : Entry) (h : d.run p = .ok e p')
  /-- Stores the body of a function. -/
  | store (id : FunctionId) (body : Block) (h : Build.setBody id body p = .ok () p')
  /-- Gives a model another equality and another hash, with or without their bodies. -/
  | override (id : ModelId) (m : Model) (hm : p.getModel? id = some m) (equality : Option Equality)
      (hashing : Option Block) (h : Build.setModel id { m with equality, hashing } p = .ok () p')

/-- Any number of changes. -/
abbrev Program.Steps : Program → Program → Prop :=
  Relation.ReflTransGen Program.Step

/-- What the typing rules read in a program, they read in the other as well. -/
structure Program.Keeps (p p' : Program) : Prop where
  constants : ∀ {id c}, p.getConstant? id = some c → p'.getConstant? id = some c
  functions : ∀ {id f}, p.getFunction? id = some f →
    ∃ f', p'.getFunction? id = some f' ∧ f.SameSignature f'
  fields : ∀ {id i f}, p.getField? id i = some f → p'.getField? id i = some f
  methods : ∀ {id m name g},
    p.getModel? id = some m → m.method? name = some g →
      ∃ m', p'.getModel? id = some m' ∧ m'.method? name = some g
  locals : ∀ {id l}, p.getLocal? id = some l → p'.getLocal? id = some l

theorem Program.Keeps.refl (p : Program) : p.Keeps p :=
  ⟨id, fun {_ f} hf => ⟨f, hf, .refl f⟩, id, fun {_ m _ _} hm hg => ⟨m, hm, hg⟩, id⟩

variable {p p' : Program}

/-- A model whose members are kept may be replaced. -/
theorem keeps_withModel {id : ModelId} {m m' : Model} (hm : p.getModel? id = some m)
    (hfields : ∀ {i : Nat} {f}, m.fields[i]? = some f → m'.fields[i]? = some f)
    (hmethods : ∀ {name g}, m.method? name = some g → m'.method? name = some g) :
    p.Keeps (p.withModel id m') := by
  refine { Program.Keeps.refl p with fields := fun {id' i f} hf => ?_, methods := fun hn hg => ?_ }
  · obtain ⟨n, hn, hi⟩ := Option.bind_eq_some_iff.mp hf
    rw [Program.getField?, getModel?_withModel hm]
    by_cases hid : id' = id
    · cases hm.symm.trans (hid ▸ hn)
      rw [if_pos hid]
      exact hfields hi
    · rw [if_neg hid]
      exact hf
  · rw [getModel?_withModel hm]
    split
    · next hid =>
      cases hm.symm.trans (hid ▸ hn)
      exact ⟨m', rfl, hmethods hg⟩
    · exact ⟨_, hn, hg⟩

theorem Declaration.Adds.keeps {d : Declaration} {e : Entry} (h : Declaration.Adds p d e p')
    (hfree : ∀ space name, d.key? = some (space, name) → ¬p.Uses space name) : p.Keeps p' := by
  have hrefl := Program.Keeps.refl p
  cases h with
  | constant c => exact { hrefl with constants := (Lowering.withConstants_grows [c]).constants }
  | function f | owned f =>
    exact { hrefl with functions := fun {_ f} hf => ⟨f, getElem?_append_of_some hf _, .refl f⟩ }
  | model name =>
    refine { hrefl with fields := fun hf => ?_, methods := fun {_ m _ _} hm hg => ?_ }
    · obtain ⟨m, hm, hi⟩ := Option.bind_eq_some_iff.mp hf
      exact Option.bind_eq_some_iff.mpr ⟨m, getElem?_append_of_some hm _, hi⟩
    · exact ⟨m, getElem?_append_of_some hm _, hg⟩
  | field hm f =>
    refine keeps_withModel hm (fun hi => ?_) fun hg => hg
    exact (List.getElem?_append_left (List.getElem?_eq_some_iff.mp hi).1).trans hi
  | method hm name g =>
    refine keeps_withModel hm (fun hi => hi) fun {name' g'} hg => ?_
    rw [Model.method?, Model.addMethods, List.lookup_append]
    exact Option.or_eq_some_iff.mpr (.inl hg)
  | binding l => exact { hrefl with locals := fun hl => getElem?_push_of_some hl l }

theorem Declaration.keeps {d : Declaration} {e : Entry} (h : d.run p = .ok e p') : p.Keeps p' := by
  cases d.outcome p with
  | unknown _ _ _ hrun | taken _ _ _ _ hrun => cases hrun.symm.trans h
  | added hfree e q hadds hrun =>
    cases hrun.symm.trans h
    exact hadds.keeps hfree

theorem Program.Step.keeps (h : p.Step p') : p.Keeps p' := by
  cases h with
  | declare d e h => exact Declaration.keeps h
  | store id body h =>
    cases h
    refine { Program.Keeps.refl p with functions := fun {id' f} hf => ?_ }
    have hget : (p.functions.modify id.index ({ · with body }))[id'.index]? = _ :=
      Array.getElem?_modify
    by_cases hid : id.index = id'.index
    · refine ⟨{ f with body }, hget.trans ?_, rfl, rfl, rfl, rfl⟩
      rw [if_pos hid]
      exact congrArg _ hf
    · exact ⟨f, hget.trans ((if_neg hid).trans hf), .refl f⟩
  | override id m hm equality hashing h =>
    cases h
    exact keeps_withModel hm (fun hi => hi) fun hg => hg

theorem Program.Steps.keeps (h : p.Steps p') : p.Keeps p' := by
  induction h with
  | refl => exact .refl p
  | tail _ hstep ih =>
    have h := hstep.keeps
    refine ⟨fun hc => h.constants (ih.constants hc), fun hf => ?_,
      fun hf => h.fields (ih.fields hf), fun hm hg => ?_, fun hl => h.locals (ih.locals hl)⟩
    · obtain ⟨f', hf', hs'⟩ := ih.functions hf
      obtain ⟨f'', hf'', hs''⟩ := h.functions hf'
      exact ⟨f'', hf'', hs'.trans hs''⟩
    · obtain ⟨m', hm', hg'⟩ := ih.methods hm hg
      exact h.methods hm' hg'

theorem Program.Keeps.definitionType? (h : p.Keeps p') {d : Definition} {t : Ty}
    (hd : p.definitionType? d = some t) : p'.definitionType? d = some t := by
  cases d with
  | constant id => exact map_eq_some_of_imp h.constants hd
  | argument function i =>
    obtain ⟨q, hq, ht⟩ := Option.map_eq_some_iff.mp hd
    obtain ⟨f, hf, hi⟩ := Option.bind_eq_some_iff.mp hq
    obtain ⟨f', hf', hs⟩ := h.functions hf
    rw [← hs.parameters] at hi
    exact Option.map_eq_some_iff.mpr ⟨q, Option.bind_eq_some_iff.mpr ⟨f', hf', hi⟩, ht⟩
  | field model i => exact map_eq_some_of_imp h.fields hd
  | binding id => exact map_eq_some_of_imp h.locals hd

end Scribe.Core

namespace Scribe.Lowering

open Scribe.Core

/-- What an expression or an operator has as its type, and what a method is found to be, stays so
while a program goes through the changes of lowering. -/
theorem types_stable {p p' : Program} (h : p.Steps p') :
    (∀ {e t}, typeOf p e = .ok t → typeOf p' e = .ok t) ∧
    (∀ {container key r}, lookupType p container key = .ok r →
      lookupType p' container key = .ok r) ∧
    (∀ {t kind}, lengthKind p t = .ok kind → lengthKind p' t = .ok kind) ∧
    (∀ {t r}, iterableKind p t = .ok r → iterableKind p' t = .ok r) ∧
    (∀ {op t output}, unaryOutput p op t = .ok output → unaryOutput p' op t = .ok output) ∧
    (∀ {op l r output}, binaryOutput p op l r = .ok output →
      binaryOutput p' op l r = .ok output) ∧
    ∀ {t name g}, resolveMethod p t name = .ok g → resolveMethod p' t name = .ok g := by
  have hkeeps := h.keeps
  refine ⟨fun {e _} he => typeOf_of_kept (fun hf => ?_) hkeeps.definitionType? e he,
    fun h => lookupType_eq_ok.mpr (lookupType_eq_ok.mp h),
    fun h => lengthKind_eq_ok.mpr (lengthKind_eq_ok.mp h),
    fun h => iterableKind_eq_ok.mpr (iterableKind_eq_ok.mp h),
    fun h => unaryOutput_eq_ok.mpr (unaryOutput_eq_ok.mp h),
    fun h => binaryOutput_eq_ok.mpr (binaryOutput_eq_ok.mp h), fun h => ?_⟩
  · obtain ⟨f', hf', hs⟩ := hkeeps.functions hf
    exact ⟨f', hf', hs.returnType⟩
  · obtain ⟨id, m, rfl, hm, hg⟩ := resolveMethod_eq_ok.mp h
    obtain ⟨m', hm', hg'⟩ := hkeeps.methods hm hg
    exact resolveMethod_eq_ok.mpr ⟨id, m', rfl, hm', hg'⟩

/-- A square with a side and an area. -/
def squareProgram : Program where
  name := "Squares"
  functions := #[{ name := "area", parameters := [], returnType := .int, owner := some ⟨0⟩ }]
  models := #[{
    name := "Square", fields := [⟨"side", .int⟩], methods := [⟨"area", ⟨0⟩⟩],
    fieldMap := [("side", 0)], methodMap := [("area", ⟨0⟩)] }]
  locals := #[⟨"square", .model ⟨0⟩, .declared⟩]
  modelMap := [("Square", ⟨0⟩)]

/-- The side of a square and its area together. -/
def squareSum : Expr :=
  .binary .add (.property (.var (.binding ⟨0⟩) (.model ⟨0⟩)) ⟨⟨0⟩, 0⟩ .int)
    (.call (some (.var (.binding ⟨0⟩) (.model ⟨0⟩))) [] ⟨0⟩ .int) .int

/-- A field more, a body and a hash change the program and none of its types. -/
theorem squareProgram_types_stable : ∃ p', squareProgram.Steps p' ∧
    p'.models ≠ squareProgram.models ∧ typeOf squareProgram squareSum = .ok .int ∧
    typeOf p' squareSum = .ok .int ∧ resolveMethod p' (.model ⟨0⟩) "area" = .ok ⟨0⟩ := by
  have hsteps : squareProgram.Steps _ :=
    .tail (.tail (.single (.declare (.field ⟨0⟩ ⟨"name", .string⟩) _ rfl))
      (.store ⟨0⟩ [.ret (some (.int 4)) (.function ⟨0⟩)] rfl))
      (.override ⟨0⟩ _ rfl none (some []) rfl)
  obtain ⟨htypes, _, _, _, _, _, hmethods⟩ := types_stable hsteps
  exact ⟨_, hsteps, by simp [squareProgram], rfl, htypes rfl, hmethods rfl⟩

end Scribe.Lowering
