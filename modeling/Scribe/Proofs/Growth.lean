import Scribe.Proofs.Occurrence
import Scribe.Proofs.Rules

/-!
# Programs that grow

Lowering changes a program by adding to it: definitions come to the end of their tables, fields and
methods to the end of theirs, and bodies are put where there was none. `Grows` says what is kept by
all of these changes: an id keeps its definition, up to bodies.

The type of an expression is found by looking up ids, so it stays what it is while the program grows
(`typeOf_grows`). The same holds of everything else that is found by id or by name in a model.
-/

namespace Scribe.Core

variable {α : Type} {a : Array α} {i : Nat} {y x : α}

theorem getElem?_push_of_some (h : a[i]? = some y) (x : α) : (a.push x)[i]? = some y := by
  obtain ⟨hlt, rfl⟩ := Array.getElem?_eq_some_iff.mp h
  exact Array.getElem?_push_lt hlt

theorem getElem?_append_of_some (h : a[i]? = some y) (b : Array α) : (a ++ b)[i]? = some y :=
  (Array.getElem?_append_left (Array.getElem?_eq_some_iff.mp h).1).trans h

/-- What is found in a table with one more entry was there before or is the new entry. -/
theorem getElem?_push_cases (h : (a.push x)[i]? = some y) :
    a[i]? = some y ∨ (i = a.size ∧ x = y) := by
  rw [Array.getElem?_push] at h
  by_cases hi : i = a.size
  · rw [if_pos hi] at h
    exact .inr ⟨hi, Option.some.inj h⟩
  · rw [if_neg hi] at h
    exact .inl h

theorem map_eq_some_of_imp {β : Type} {o o' : Option α} {f : α → β} {z : β}
    (h : ∀ {x}, o = some x → o' = some x) (hz : o.map f = some z) : o'.map f = some z := by
  obtain ⟨x, hx, rfl⟩ := Option.map_eq_some_iff.mp hz
  rw [h hx, Option.map_some]

/-- A table with another entry behind an index. -/
theorem getElem?_set_of_some (h : a[i]? = some x) (y : α) (j : Nat) :
    (a.setIfInBounds i y)[j]? = if j = i then some y else a[j]? := by
  obtain ⟨hlt, _⟩ := Array.getElem?_eq_some_iff.mp h
  rw [Array.getElem?_setIfInBounds]
  by_cases hij : i = j
  · rw [if_pos hij, if_pos hlt, if_pos hij.symm]
  · rw [if_neg hij, if_neg (Ne.symm hij)]

/-- Two functions that differ in their bodies only. -/
structure Function.SameSignature (f f' : Function) : Prop where
  name : f'.name = f.name
  parameters : f'.parameters = f.parameters
  returnType : f'.returnType = f.returnType
  owner : f'.owner = f.owner

/-- A model that has more members, or bodies where it had none. -/
structure Model.Grows (m m' : Model) : Prop where
  name : m'.name = m.name
  fields : m.fields <+: m'.fields
  methods : m.methods <+: m'.methods
  other : ∀ {e}, m.equality = some e → ∃ e', m'.equality = some e' ∧ e'.other = e.other

/-- A program that has more definitions, or bodies where it had none. -/
structure Program.Grows (p p' : Program) : Prop where
  constants : ∀ {id c}, p.getConstant? id = some c → p'.getConstant? id = some c
  functions : ∀ {id f}, p.getFunction? id = some f →
    ∃ f', p'.getFunction? id = some f' ∧ f.SameSignature f'
  models : ∀ {id m}, p.getModel? id = some m → ∃ m', p'.getModel? id = some m' ∧ m.Grows m'
  locals : ∀ {id l}, p.getLocal? id = some l → p'.getLocal? id = some l

theorem Function.SameSignature.refl (f : Function) : f.SameSignature f :=
  ⟨rfl, rfl, rfl, rfl⟩

theorem Function.SameSignature.trans {f g k : Function} (h1 : f.SameSignature g)
    (h2 : g.SameSignature k) : f.SameSignature k :=
  ⟨h2.name.trans h1.name, h2.parameters.trans h1.parameters, h2.returnType.trans h1.returnType,
    h2.owner.trans h1.owner⟩

namespace Model.Grows

variable {m m' m'' : Model}

theorem refl (m : Model) : m.Grows m :=
  ⟨rfl, List.prefix_refl _, List.prefix_refl _, fun {e} he => ⟨e, he, rfl⟩⟩

theorem trans (h1 : m.Grows m') (h2 : m'.Grows m'') : m.Grows m'' := by
  refine ⟨h2.name.trans h1.name, h1.fields.trans h2.fields, h1.methods.trans h2.methods, ?_⟩
  intro e he
  obtain ⟨e', he', ho'⟩ := h1.other he
  obtain ⟨e'', he'', ho''⟩ := h2.other he'
  exact ⟨e'', he'', ho''.trans ho'⟩

theorem getElem?_fields (h : m.Grows m') {i : Nat} {f : Field} (hf : m.fields[i]? = some f) :
    m'.fields[i]? = some f := by
  obtain ⟨rest, hrest⟩ := h.fields
  obtain ⟨hi, _⟩ := List.getElem?_eq_some_iff.mp hf
  rw [← hrest, List.getElem?_append_left hi]
  exact hf

end Model.Grows

namespace Program.Grows

variable {p p' p'' : Program}

theorem refl (p : Program) : p.Grows p :=
  ⟨id, fun {_ f} hf => ⟨f, hf, .refl f⟩, fun {_ m} hm => ⟨m, hm, .refl m⟩, id⟩

theorem trans (h1 : p.Grows p') (h2 : p'.Grows p'') : p.Grows p'' := by
  refine ⟨fun hc => h2.constants (h1.constants hc), ?_, ?_, fun hl => h2.locals (h1.locals hl)⟩
  · intro id f hf
    obtain ⟨f', hf', hs'⟩ := h1.functions hf
    obtain ⟨f'', hf'', hs''⟩ := h2.functions hf'
    exact ⟨f'', hf'', hs'.trans hs''⟩
  · intro id m hm
    obtain ⟨m', hm', hg'⟩ := h1.models hm
    obtain ⟨m'', hm'', hg''⟩ := h2.models hm'
    exact ⟨m'', hm'', hg'.trans hg''⟩

/-! ## What ids stand for -/

variable {i : Nat} {t : Ty} {c : Callable}

theorem getParameter? (h : p.Grows p') {function : FunctionId} {q : Parameter}
    (hq : p.getParameter? function i = some q) : p'.getParameter? function i = some q := by
  unfold Program.getParameter? at *
  obtain ⟨f, hf, hi⟩ := Option.bind_eq_some_iff.mp hq
  obtain ⟨f', hf', hs⟩ := h.functions hf
  refine Option.bind_eq_some_iff.mpr ⟨f', hf', ?_⟩
  rw [hs.parameters]
  exact hi

theorem getField? (h : p.Grows p') {model : ModelId} {f : Field}
    (hf : p.getField? model i = some f) : p'.getField? model i = some f := by
  unfold Program.getField? at *
  obtain ⟨m, hm, hi⟩ := Option.bind_eq_some_iff.mp hf
  obtain ⟨m', hm', hg⟩ := h.models hm
  exact Option.bind_eq_some_iff.mpr ⟨m', hm', hg.getElem?_fields hi⟩

theorem definitionType? (h : p.Grows p') {d : Definition} (hd : p.definitionType? d = some t) :
    p'.definitionType? d = some t := by
  cases d with
  | constant id => exact map_eq_some_of_imp h.constants hd
  | argument function i => exact map_eq_some_of_imp h.getParameter? hd
  | field model i => exact map_eq_some_of_imp h.getField? hd
  | binding id => exact map_eq_some_of_imp h.locals hd

theorem callableReturnType? (h : p.Grows p') (hc : p.callableReturnType? c = some t) :
    p'.callableReturnType? c = some t := by
  cases c with
  | function id =>
    obtain ⟨f, hf, ht⟩ := Option.map_eq_some_iff.mp hc
    obtain ⟨f', hf', hs⟩ := h.functions hf
    exact Option.map_eq_some_iff.mpr ⟨f', hf', hs.returnType.trans ht⟩
  | equality _ => exact hc
  | hashing _ => exact hc

theorem owner? (h : p.Grows p') {m : ModelId} (hc : p.owner? c = some m) :
    p'.owner? c = some m := by
  cases c with
  | function id =>
    obtain ⟨f, hf, ho⟩ := Option.bind_eq_some_iff.mp hc
    obtain ⟨f', hf', hs⟩ := h.functions hf
    exact Option.bind_eq_some_iff.mpr ⟨f', hf', hs.owner.trans ho⟩
  | equality _ => exact hc
  | hashing _ => exact hc

theorem other? (h : p.Grows p') {id : LocalId} (hc : p.other? c = some id) :
    p'.other? c = some id := by
  cases c with
  | function _ => cases hc
  | hashing _ => cases hc
  | equality model =>
    obtain ⟨e, he, ho⟩ := Option.map_eq_some_iff.mp hc
    obtain ⟨m, hm, hme⟩ := Option.bind_eq_some_iff.mp he
    obtain ⟨m', hm', hg⟩ := h.models hm
    obtain ⟨e', he', ho'⟩ := hg.other hme
    refine Option.map_eq_some_iff.mpr ⟨e', ?_, ho'.trans ho⟩
    exact Option.bind_eq_some_iff.mpr ⟨m', hm', he'⟩

end Program.Grows

end Scribe.Core

namespace Scribe.Lowering

open Scribe.Core

variable {p p' : Program}

/-- The type of an expression depends on what functions return and on the types of definitions. -/
theorem typeOf_of_kept
    (hfunctions : ∀ {id f}, p.getFunction? id = some f →
      ∃ f', p'.getFunction? id = some f' ∧ f'.returnType = f.returnType)
    (hdefinitions : ∀ {d t}, p.definitionType? d = some t →
      p'.definitionType? d = some t) (e : Expr) {t : Ty} (he : typeOf p e = .ok t) :
    typeOf p' e = .ok t := by
  induction e using Expr.nodeInduction generalizing t with
  | h e ih =>
  cases e with
  | bool | int | rune | string | emptyList | emptySet | emptyMap | contains | new | self | length
  | null | pop => exact he
  | list items item | set items item =>
    simp only [typeOf, Result.bind_eq_ok, Result.pure_eq_ok, sharedType_items] at he ⊢
    obtain ⟨s, ⟨hne, hall⟩, rfl⟩ := he
    exact ⟨s, ⟨hne, fun c hc => ih c hc (hall c hc)⟩, rfl⟩
  | map entries key value =>
    simp only [typeOf, Result.bind_eq_ok, Result.pure_eq_ok, sharedType_keys,
      sharedType_values] at he ⊢
    obtain ⟨k, ⟨hne, hkeys⟩, v, ⟨_, hvalues⟩, rfl⟩ := he
    refine ⟨k, ⟨hne, fun c hc => ih c.1 ?_ (hkeys c hc)⟩, v,
      ⟨hne, fun c hc => ih c.2 ?_ (hvalues c hc)⟩, rfl⟩
    · exact List.mem_flatMap.mpr ⟨c, hc, List.mem_cons_self⟩
    · exact List.mem_flatMap.mpr ⟨c, hc, List.mem_cons_of_mem _ List.mem_cons_self⟩
  | call receiver arguments function returnType =>
    simp only [typeOf, Result.bind_eq_ok, Result.pure_eq_ok, Checked.ofOption_eq_ok] at he ⊢
    obtain ⟨f, hf, rfl⟩ := he
    exact hfunctions hf
  | lookup container key kind output =>
    simp only [typeOf, Result.bind_eq_ok, Result.pure_eq_ok] at he ⊢
    obtain ⟨tc, htc, tk, htk, ⟨k, o⟩, hlookup, rfl⟩ := he
    refine ⟨tc, ih container ?_ htc, tk, ih key ?_ htk, (k, o), ?_, rfl⟩
    · exact List.mem_cons_self
    · exact List.mem_cons_of_mem _ List.mem_cons_self
    · -- said as a relation, the rule does not look at the program
      rw [lookupType_eq_ok] at hlookup ⊢
      exact hlookup
  | property receiver field output =>
    simp only [typeOf, Checked.ofOption_eq_ok] at he ⊢
    exact hdefinitions he
  | unary op operand output =>
    simp only [typeOf, Result.bind_eq_ok, Result.pure_eq_ok, unaryOutput_eq_ok] at he ⊢
    obtain ⟨s, hs, o, ho, rfl⟩ := he
    exact ⟨s, ih operand List.mem_cons_self hs, o, ho, rfl⟩
  | binary op left right output =>
    unfold typeOf at he ⊢
    by_cases hnull : (op.isEquality && (left.isNull || right.isNull)) = true
    · rw [if_pos hnull] at he ⊢
      exact he
    · rw [if_neg hnull] at he ⊢
      simp only [Result.bind_eq_ok, Result.pure_eq_ok, binaryOutput_eq_ok] at he ⊢
      obtain ⟨l, hl, r, hr, o, ho, rfl⟩ := he
      refine ⟨l, ih left ?_ hl, r, ih right ?_ hr, o, ho, rfl⟩
      · exact List.mem_cons_self
      · exact List.mem_cons_of_mem _ List.mem_cons_self
  | var definition output =>
    simp only [typeOf, Checked.ofOption_eq_ok] at he ⊢
    exact hdefinitions he

/-- The type of an expression stays what it is while the program grows. -/
theorem typeOf_grows (h : p.Grows p') (e : Expr) {t : Ty} (he : typeOf p e = .ok t) :
    typeOf p' e = .ok t := by
  refine typeOf_of_kept (fun hf => ?_) h.definitionType? e he
  obtain ⟨f', hf', hs⟩ := h.functions hf
  exact ⟨f', hf', hs.returnType⟩

theorem returnedType_grows (h : p.Grows p') {value : Option Expr} {t : Ty}
    (hv : returnedType p value = .ok t) : returnedType p' value = .ok t := by
  cases value with
  | none => exact hv
  | some e => exact typeOf_grows h e hv

end Scribe.Lowering
