import Mathlib.Data.List.Flatten
import Mathlib.Data.List.GetD
import Mathlib.Data.List.Lattice
import Mathlib.Data.List.Pairwise
import Mathlib.Data.Set.Function
import Scribe.Proofs.Layout
import Scribe.Proofs.Signatures

/-!
# One body at a time

A block is lowered against what its module declares, and sees nothing of other blocks. If two modules
differ in the block of one callable and both can be lowered, the programs differ in the body of that
callable and in the ids of locals (`lower_sameBut`).

The stretches of the table of locals are the same in both programs, and all but one are as long in
one as in the other. The locals of these stretches are two increasing lists of the same length, and
an id is moved from its place in one list to the same place in the other (`exists_ordered`).
-/

namespace Scribe.Core

/-! ## Programs that differ in one body -/

/-- New ids for locals only. -/
def Renaming.ofLocals (locals : LocalId → LocalId) : Renaming :=
  ⟨id, id, locals⟩

theorem Ty.rename_id (t : Ty) : t.rename id = t := by
  induction t with
  | primitive t => rfl
  | list item ih => exact congrArg Ty.list ih
  | map key value ihkey ihvalue => rw [Ty.rename, ihkey, ihvalue]
  | set item ih => exact congrArg Ty.set ih
  | model m => rfl

theorem Local.rename_id (l : Local) : l.rename id = l := by
  rw [Local.rename, Ty.rename_id]

theorem Callable.rename_ofLocals (locals : LocalId → LocalId) (callable : Callable) :
    callable.rename (.ofLocals locals) = callable := by
  cases callable <;> rfl

/-- The locals of a program that the body of a callable does not bind. -/
def Program.localsBut (p : Program) (callable : Callable) : Set LocalId :=
  {id | (∃ l, p.getLocal? id = some l) ∧ id ∉ p.slotBinders (.body callable)}

/-- `q` is `p` with another body for one callable. What is declared is the same, and all other bodies
are the same under new ids for the locals that the callable does not bind. These keep their order,
their names, their types and their origins. -/
structure Program.SameBut (callable : Callable) (locals : LocalId → LocalId) (p q : Program) :
    Prop where
  stripped : q.stripped = p.stripped
  bodies : ∀ c, (q.body? c).isSome = (p.body? c).isSome
  body? : ∀ c ≠ callable, q.body? c = (p.body? c).map (renameBlock (.ofLocals locals))
  other? : ∀ c, q.other? c = (p.other? c).map locals
  bijOn : Set.BijOn locals (p.localsBut callable) (q.localsBut callable)
  ordered : ∀ i ∈ p.localsBut callable, ∀ j ∈ p.localsBut callable, i.index < j.index →
    (locals i).index < (locals j).index
  getLocal? : ∀ id ∈ p.localsBut callable, q.getLocal? (locals id) = p.getLocal? id

/-! ## Stretches of programs that declare the same -/

theorem Program.modelIds_stripped (p : Program) : p.stripped.modelIds = p.modelIds := by
  rw [Program.modelIds, Program.modelIds, Program.stripped, Array.size_map]

theorem Program.methodsOf_stripped (p : Program) (id : ModelId) :
    p.stripped.methodsOf id = p.methodsOf id := by
  rw [Program.methodsOf, Program.methodsOf, getModel?_stripped]
  cases p.getModel? id <;> rfl

theorem Program.slots_stripped (p : Program) : p.stripped.slots = p.slots := by
  have hmembers : p.stripped.memberSlots = p.memberSlots := by
    funext id
    rw [Program.memberSlots, Program.memberSlots, p.methodsOf_stripped]
  rw [Program.slots, Program.slots, p.modelIds_stripped, hmembers]
  rfl

/-- The locals of all stretches but one, in order. -/
def Program.bindersBut (p : Program) (slot : Slot) : List LocalId :=
  (p.slots.filter (· ≠ slot)).flatMap p.slotBinders

theorem Program.sublist_bindersBut (p : Program) (slot : Slot) :
    (p.bindersBut slot).Sublist (p.slots.flatMap p.slotBinders) :=
  List.filter_sublist.flatMap _

theorem Program.mem_bindersBut {p : Program} {slot : Slot} {id : LocalId} :
    id ∈ p.bindersBut slot ↔ ∃ s ∈ p.slots, s ≠ slot ∧ id ∈ p.slotBinders s := by
  rw [bindersBut, List.mem_flatMap]
  simp only [List.mem_filter, decide_eq_true_eq, and_assoc]

end Scribe.Core

namespace Scribe.Lowering

open Scribe.Core

theorem Similar.refl (p : Program) : Similar (.ofLocals fun id => id) p p := by
  refine ⟨fun _ => rfl, fun _ => Option.map_id_apply.symm, fun _ => Option.map_id_apply.symm, ?_, ?_,
    ?_⟩
  · intro id k hk
    exact ⟨k, hk, k.type.rename_id.symm⟩
  · intro id f hf
    refine ⟨f, hf, rfl, ?_, f.returnType.rename_id.symm⟩
    exact (List.map_id'' (fun q => by rw [Renaming.ofLocals, Parameter.rename, Ty.rename_id]) _).symm
  · intro id m hm
    refine ⟨m, hm, rfl, ?_, fun _ => rfl, fun _ => Option.map_id_apply.symm⟩
    exact (List.map_id'' (fun q => by rw [Renaming.ofLocals, Field.rename, Ty.rename_id]) _).symm

/-! ## Increasing lists of locals -/

/-- Increasing lists of the same length are matched by a map that keeps the order. -/
theorem exists_ordered {xs ys : List LocalId} (hlength : xs.length = ys.length)
    (hx : xs.Pairwise fun i j => i.index < j.index)
    (hy : ys.Pairwise fun i j => i.index < j.index) :
    ∃ locals : LocalId → LocalId, xs.map locals = ys ∧
      ∀ i ∈ xs, ∀ j ∈ xs, i.index < j.index → (locals i).index < (locals j).index := by
  have hnodup : xs.Nodup := hx.imp fun hlt heq => by
    rw [heq] at hlt
    exact lt_irrefl _ hlt
  have hget (k : ℕ) (hk : k < xs.length) : ys.getD (xs.idxOf xs[k]) xs[k] = ys[k] := by
    rw [hnodup.idxOf_getElem k hk, List.getD_eq_getElem _ _ (hlength ▸ hk)]
  -- an id goes to what stands at its place in the other list
  refine ⟨fun id => ys.getD (xs.idxOf id) id, ?_, ?_⟩
  · refine List.ext_getElem (by rw [List.length_map, hlength]) fun k hk _ => ?_
    rw [List.getElem_map]
    exact hget k (by rwa [List.length_map] at hk)
  · intro i hi j hj hlt
    obtain ⟨a, ha, rfl⟩ := List.mem_iff_getElem.mp hi
    obtain ⟨b, hb, rfl⟩ := List.mem_iff_getElem.mp hj
    simp only [hget]
    have hab : a < b := by
      by_contra hle
      rcases Nat.eq_or_lt_of_le (Nat.not_lt.mp hle) with rfl | hba
      · exact lt_irrefl _ hlt
      · have hgt := List.pairwise_iff_getElem.mp hx b a hb ha hba
        omega
    exact List.pairwise_iff_getElem.mp hy a b (hlength ▸ ha) (hlength ▸ hb) hab

variable {α β γ : Type} {f : α → List β} {f' : α → List γ} {xs : List α}

/-- Lists that are matched as a whole are matched piece by piece, if the pieces are as long. -/
theorem map_of_flatMap {g : β → γ} (hlength : ∀ x ∈ xs, (f x).length = (f' x).length)
    (h : (xs.flatMap f).map g = xs.flatMap f') : ∀ x ∈ xs, (f x).map g = f' x := by
  induction xs with
  | nil => exact List.forall_mem_nil _
  | cons x xs ih =>
    rw [List.flatMap_cons, List.flatMap_cons, List.map_append] at h
    have hfirst : ((f x).map g).length = (f' x).length := by
      rw [List.length_map]
      exact hlength x List.mem_cons_self
    obtain ⟨hhead, htail⟩ := List.append_inj h hfirst
    refine List.forall_mem_cons.mpr ⟨hhead, ih ?_ htail⟩
    exact fun y hy => hlength y (List.mem_cons_of_mem _ hy)

theorem length_flatMap_of_forall (h : ∀ x ∈ xs, (f x).length = (f' x).length) :
    (xs.flatMap f).length = (xs.flatMap f').length := by
  rw [List.length_flatMap, List.length_flatMap, List.map_congr_left h]

theorem pairwise_bindersBut {m : Syntax.Module} {limit : Option Nat} {p : Program}
    (h : lower m limit = .ok p) (slot : Slot) :
    (p.bindersBut slot).Pairwise fun i j => i.index < j.index := by
  have hsublist := p.sublist_bindersBut slot
  rw [lower_slots h] at hsublist
  exact List.Pairwise.sublist hsublist (List.pairwise_map.mpr List.pairwise_lt_range)

/-! ## Callables and their blocks -/

section Made

variable {p : Program} {id : ModelId}

theorem MadeFrom.isSome_body? {callable : Callable} {scope : Scope} {block : Syntax.Block}
    (h : MadeFrom p callable scope block) : (p.body? callable).isSome = true := by
  obtain ⟨_, _, _, _, hbody, _⟩ := h.made
  rw [hbody]
  rfl

theorem EqualityMade.isSome_body? {e : Option Syntax.Equality} (h : EqualityMade p id e) :
    (p.body? (.equality id)).isSome = e.isSome := by
  cases e with
  | none => exact congrArg Option.isSome h
  | some e =>
    obtain ⟨_, _, _, _, hmade⟩ := h
    exact hmade.isSome_body?

theorem HashingMade.isSome_body? {block : Option Syntax.Block} (h : HashingMade p id block) :
    (p.body? (.hashing id)).isSome = block.isSome := by
  cases block with
  | none => exact congrArg Option.isSome h
  | some block => exact MadeFrom.isSome_body? h

end Made

section Traced

variable {m : Syntax.Module} {p : Program} {ts : Tables} (h : Traced m p ts)

include h

/-- A callable has a body if it has a block. -/
theorem Traced.isSome_body? (callable : Callable) :
    (p.body? callable).isSome = (blockOf? m callable).isSome := by
  cases callable with
  | function id =>
    rw [Program.body?, blockOf?, Option.isSome_map, Option.isSome_map, Bool.eq_iff_iff,
      Option.isSome_iff_exists, Option.isSome_iff_exists]
    exact h.exists_function id
  | equality id =>
    rw [blockOf?, Option.isSome_map]
    cases hmd : m.models[id.index]? with
    | none => rw [Program.body?, h.getModel?_eq_none hmd]; rfl
    | some md => exact (h.overrides hmd).1.isSome_body?
  | hashing id =>
    rw [blockOf?]
    cases hmd : m.models[id.index]? with
    | none => rw [Program.body?, h.getModel?_eq_none hmd]; rfl
    | some md => exact (h.overrides hmd).2.isSome_body?

theorem Traced.body?_eq_none {callable : Callable} (hblock : blockOf? m callable = none) :
    p.body? callable = none := by
  have hisSome := h.isSome_body? callable
  rw [hblock, Option.isSome_none] at hisSome
  exact Option.isNone_iff_eq_none.mp (Option.isSome_eq_false_iff.mp hisSome)

/-- The body of a callable is one of the stretches. -/
theorem Traced.body_mem_slots {callable : Callable} {body : Block}
    (hbody : p.body? callable = some body) : .body callable ∈ p.slots := by
  have hmember {id : ModelId} {model : Model} {slot : Slot} (hmodel : p.getModel? id = some model)
      (hslot : slot ∈ p.memberSlots id) : slot ∈ p.slots :=
    List.mem_append_right _ (List.mem_append_right _ (List.mem_flatMap.mpr
      ⟨id, Program.mem_modelIds.mpr ⟨model, hmodel⟩, hslot⟩))
  cases callable with
  | function id =>
    obtain ⟨f, hf, _⟩ := Option.map_eq_some_iff.mp hbody
    cases howner : f.owner with
    | none =>
      refine List.mem_append_left _ (List.mem_map.mpr ⟨id, ?_, rfl⟩)
      exact (Program.mem_freeFunctions h.indexed).mpr ⟨f, hf, howner⟩
    | some owner =>
      have hmem := h.mem_methodsOf.mpr ⟨f, hf, howner⟩
      obtain ⟨model, _, hmodel, _⟩ := Program.mem_methodsOf hmem
      exact hmember hmodel (List.mem_append_left _ (List.mem_map.mpr ⟨id, hmem, rfl⟩))
  | equality id =>
    obtain ⟨e, he, _⟩ := Option.map_eq_some_iff.mp hbody
    obtain ⟨model, hmodel, _⟩ := Option.bind_eq_some_iff.mp he
    exact hmember hmodel (List.mem_append_right _ List.mem_cons_self)
  | hashing id =>
    obtain ⟨model, hmodel, _⟩ := Option.bind_eq_some_iff.mp hbody
    exact hmember hmodel (List.mem_append_right _ (List.mem_cons_of_mem _ List.mem_cons_self))

/-- What is no stretch of a program binds nothing. -/
theorem Traced.slotBinders_of_notMem {slot : Slot} (hslot : slot ∉ p.slots) :
    p.slotBinders slot = [] := by
  cases slot with
  | body callable =>
    refine Program.slotBinders_of_none (Option.eq_none_iff_forall_ne_some.mpr ?_)
    exact fun body hbody => hslot (h.body_mem_slots hbody)
  | other id =>
    have hnone : p.getModel? id = none := by
      refine Option.eq_none_iff_forall_ne_some.mpr fun model hmodel => hslot ?_
      refine List.mem_append_right _ (List.mem_append_left _ (List.mem_map.mpr ⟨id, ?_, rfl⟩))
      exact Program.mem_modelIds.mpr ⟨model, hmodel⟩
    rw [Program.slotBinders, Program.other?, hnone]
    rfl

end Traced

/-! ## Two modules -/

section Pair

variable {m m' : Syntax.Module} {p p' : Program} {ts ts' : Tables}
  (h : Traced m p ts) (h' : Traced m' p' ts') (hm : m.SameSignatures m')

include h h' hm

theorem Traced.stripped_same : p'.stripped = p.stripped := by
  rw [h'.stripped, h'.declares.unique (h.declares.same hm), declaredProgram_same hm, h.stripped]

/-- What an equality compares with has the same name and type in both programs. -/
theorem Traced.rel_other (callable : Callable) :
    Option.Rel (fun i j => ∃ l, p.getLocal? i = some l ∧ p'.getLocal? j = some l)
      (p.other? callable) (p'.other? callable) := by
  cases callable with
  | function _ | hashing _ => exact .none
  | equality id =>
    have hrel := rel_getElem?_of_forall₂ hm.models id.index
    cases hmd : m.models[id.index]? with
    | none =>
      have hmd' : m'.models[id.index]? = none := by
        rw [hmd] at hrel
        generalize m'.models[id.index]? = x at hrel
        cases hrel
        rfl
      rw [Program.other?, Program.other?, h.getModel?_eq_none hmd, h'.getModel?_eq_none hmd']
      exact .none
    | some md =>
      obtain ⟨md', hmd', hsame⟩ := rel_eq_some_left hrel hmd
      obtain ⟨hequality, _⟩ := h.overrides hmd
      obtain ⟨hequality', _⟩ := h'.overrides hmd'
      have hname := hsame.equality
      cases he : md.equality with
      | none =>
        rw [he] at hequality hname
        rw [Option.map_eq_none_iff.mp hname] at hequality'
        rw [other?_of_none hequality, other?_of_none hequality']
        exact .none
      | some e =>
        rw [he] at hequality hname
        obtain ⟨e', he', hother⟩ := Option.map_eq_some_iff.mp hname
        rw [he'] at hequality'
        obtain ⟨_, other, hother1, hlocal, _⟩ := hequality
        obtain ⟨_, other', hother2, hlocal', _⟩ := hequality'
        rw [hother] at hlocal'
        rw [hother1, hother2]
        exact .some ⟨_, hlocal, hlocal'⟩

/-- A callable with the same block in both modules is made alike. -/
theorem Traced.alike_same {callable : Callable} {block : Syntax.Block}
    (hblock : blockOf? m callable = some block) (hblock' : blockOf? m' callable = some block) :
    ∃ locals scope, MadeAlike (.ofLocals locals) p p' callable scope block := by
  cases callable with
  | function id =>
    obtain ⟨⟨owner, f⟩, hx, rfl⟩ := Option.map_eq_some_iff.mp hblock
    obtain ⟨⟨owner', f'⟩, hy, hbody⟩ := Option.map_eq_some_iff.mp hblock'
    obtain ⟨_, hy', rfl, _⟩ := rel_eq_some_left
      (rel_getElem?_of_forall₂ (forall₂_definitions_same hm) id.index) hx
    cases hy.symm.trans hy'
    have hmade' := h'.functionMade hy
    refine ⟨fun i => i, _, (h.functionMade hx).alike ?_ hbody⟩
    cases owner' <;> exact hmade'
  | equality id =>
    obtain ⟨⟨other, body⟩, he, rfl⟩ := Option.map_eq_some_iff.mp hblock
    obtain ⟨⟨other', body'⟩, he', rfl⟩ := Option.map_eq_some_iff.mp hblock'
    obtain ⟨md, hmd, he⟩ := Option.bind_eq_some_iff.mp he
    obtain ⟨md', hmd', he'⟩ := Option.bind_eq_some_iff.mp he'
    obtain ⟨hequality, _⟩ := h.overrides hmd
    obtain ⟨hequality', _⟩ := h'.overrides hmd'
    have hname := (hm.model hmd hmd').equality
    rw [he, he'] at hname
    obtain rfl : other' = other := Option.some.inj hname
    rw [he] at hequality
    rw [he'] at hequality'
    exact EqualityMade.alike (ρ := .ofLocals fun i => i) hequality hequality'
  | hashing id =>
    obtain ⟨md, hmd, hb⟩ := Option.bind_eq_some_iff.mp hblock
    obtain ⟨md', hmd', hb'⟩ := Option.bind_eq_some_iff.mp hblock'
    obtain ⟨_, hhashing⟩ := h.overrides hmd
    obtain ⟨_, hhashing'⟩ := h'.overrides hmd'
    rw [hb] at hhashing
    rw [hb'] at hhashing'
    exact ⟨fun i => i, _, hhashing.alike hhashing'⟩

/-- Programs that declare the same are similar, whatever ids locals have. -/
theorem Traced.similar_same (locals : LocalId → LocalId) : Similar (.ofLocals locals) p p' :=
  (Similar.refl p).of_stripped rfl (h.stripped_same h' hm) locals

variable {callable : Callable} (hblocks : ∀ c ≠ callable, blockOf? m' c = blockOf? m c)

include hblocks

/-- All stretches but one are as long in both programs. -/
theorem Traced.length_slotBinders {slot : Slot} (hslot : slot ≠ .body callable) :
    (p.slotBinders slot).length = (p'.slotBinders slot).length := by
  cases slot with
  | other id =>
    have hrel := h.rel_other h' hm (.equality id)
    rw [Program.slotBinders, Program.slotBinders]
    generalize p.other? (.equality id) = x, p'.other? (.equality id) = y at hrel
    cases hrel <;> rfl
  | body c =>
    have hne : c ≠ callable := fun heq => hslot (congrArg Slot.body heq)
    cases hblock : blockOf? m c with
    | none =>
      have hnone := h.body?_eq_none hblock
      have hnone' := h'.body?_eq_none ((hblocks c hne).trans hblock)
      rw [Program.slotBinders_of_none hnone, Program.slotBinders_of_none hnone']
    | some block =>
      obtain ⟨_, _, halike⟩ := h.alike_same h' hm hblock ((hblocks c hne).trans hblock)
      have hnames := congrArg List.length halike.made.localName
      have hnames' := congrArg List.length halike.made'.localName
      rw [Callable.rename_ofLocals] at hnames'
      rw [List.length_map] at hnames hnames'
      exact hnames.trans hnames'.symm

variable {locals : LocalId → LocalId}
  (hmap : ∀ slot ≠ .body callable, (p.slotBinders slot).map locals = p'.slotBinders slot)

include hmap

omit h h' hm hblocks in
theorem other?_of_slotBinders (c : Callable) : p'.other? c = (p.other? c).map locals := by
  cases c with
  | function _ | hashing _ => rfl
  | equality id =>
    have hother := hmap (.other id) (by rintro ⟨⟩)
    rw [Program.slotBinders, Program.slotBinders, ← Option.toList_map] at hother
    have hhead := congrArg List.head? hother
    rw [Option.head?_toList, Option.head?_toList] at hhead
    exact hhead.symm

omit h h' hm hblocks in
theorem bindersOf_of_slotBinders {c : Callable} (hc : c ≠ callable) :
    (p.bindersOf c).map locals = p'.bindersOf c := by
  have hbody := hmap (.body c) fun heq => hc (Slot.body.inj heq)
  rw [Program.bindersOf, Program.bindersOf, List.map_append, other?_of_slotBinders hmap]
  congr 1
  cases p.other? c <;> rfl

/-- If the locals of all stretches but one are matched, all bodies but one are the same. -/
theorem Traced.body_same {c : Callable} (hc : c ≠ callable) :
    BodyRenamed (.ofLocals locals) p p' c := by
  cases hblock : blockOf? m c with
  | none =>
    have hnone := h.body?_eq_none hblock
    have hnone' := h'.body?_eq_none ((hblocks c hc).trans hblock)
    refine ⟨?_, ?_, ?_⟩
    · rw [Callable.rename_ofLocals, hnone, hnone', Option.map_none]
    · rw [Callable.rename_ofLocals, other?_of_none hnone, other?_of_none hnone', Option.map_none]
    · rw [bindersOf_of_none hnone]
      exact List.forall_mem_nil _
  | some block =>
    obtain ⟨_, _, halike⟩ := h.alike_same h' hm hblock ((hblocks c hc).trans hblock)
    -- `halike` has locals of its own, and the stretches say that `locals` does as well
    refine halike.renamed (h.similar_same h' hm locals) ?_
    intro x hx
    rw [localPairs, Callable.rename_ofLocals, ← bindersOf_of_slotBinders hmap hc] at hx
    obtain ⟨k, hk⟩ := List.mem_iff_getElem?.mp hx
    obtain ⟨hfst, hsnd⟩ := List.getElem?_zip_eq_some.mp hk
    rw [List.getElem?_map, hfst, Option.map_some] at hsnd
    exact Option.some.inj hsnd

/-- The locals of all stretches but one are what they were. -/
theorem Traced.getLocal?_same {slot : Slot} (hslot : slot ≠ .body callable) {id : LocalId}
    (hid : id ∈ p.slotBinders slot) : p'.getLocal? (locals id) = p.getLocal? id := by
  cases slot with
  | body c =>
    have hcarries :=
      (h.body_same h' hm hblocks hmap fun heq => hslot (congrArg Slot.body heq)).carries
    obtain ⟨l, hl, hl'⟩ := hcarries id (List.mem_append_right _ hid)
    rw [hl, ← l.rename_id]
    exact hl'
  | other model =>
    have hother : p.other? (.equality model) = some id := Option.mem_toList.mp hid
    have hother' := other?_of_slotBinders hmap (.equality model)
    rw [hother] at hother'
    obtain ⟨j, hj, l, hl, hl'⟩ := rel_eq_some_left (h.rel_other h' hm (.equality model)) hother
    cases hother'.symm.trans hj
    rw [hl, hl']

end Pair

/-! ## Lowering -/

/-- Modules that differ at most in the block of one callable. -/
structure DifferAt (callable : Callable) (m m' : Syntax.Module) : Prop where
  signatures : m.SameSignatures m'
  blocks : ∀ c ≠ callable, blockOf? m' c = blockOf? m c

variable {m : Syntax.Module} {limit : Option Nat} {p : Program} {callable : Callable}

theorem mem_localsBut (h : lower m limit = .ok p) {id : LocalId} :
    id ∈ p.localsBut callable ↔ id ∈ p.bindersBut (.body callable) := by
  have hslots := lower_slots h
  have hknown : (∃ l, p.getLocal? id = some l) ↔ id ∈ p.slots.flatMap p.slotBinders := by
    rw [hslots, List.mem_map]
    refine (Program.lt_size_iff p.locals id.index).symm.trans ?_
    constructor
    · intro hlt
      exact ⟨id.index, List.mem_range.mpr hlt, rfl⟩
    · rintro ⟨i, hi, rfl⟩
      exact List.mem_range.mp hi
  have hnodup : (p.slots.flatMap p.slotBinders).Nodup := by
    rw [hslots]
    exact List.nodup_range.map fun i j heq => LocalId.mk.inj heq
  obtain ⟨_, _, htraced⟩ := lower_traced h
  rw [Program.mem_bindersBut]
  constructor
  · rintro ⟨hlocal, hnot⟩
    obtain ⟨slot, hslot, hid⟩ := List.mem_flatMap.mp (hknown.mp hlocal)
    exact ⟨slot, hslot, fun heq => hnot (heq ▸ hid), hid⟩
  · rintro ⟨slot, hslot, hne, hid⟩
    refine ⟨hknown.mpr (List.mem_flatMap.mpr ⟨slot, hslot, hid⟩), fun hbody => ?_⟩
    -- no local is in two stretches
    have hmem : Slot.body callable ∈ p.slots := by
      by_contra hnot
      rw [htraced.slotBinders_of_notMem hnot] at hbody
      cases hbody
    have hsymm : Std.Symm (Function.onFun List.Disjoint p.slotBinders) :=
      ⟨fun _ _ hdisjoint => List.Disjoint.symm hdisjoint⟩
    exact (List.nodup_flatMap.mp hnodup).2.forall hslot hmem hne hid hbody

/-- The locals of all stretches but one are matched, and keep their order. -/
theorem exists_locals_matched {m' : Syntax.Module} (hm : DifferAt callable m m')
    {limit' : Option Nat} {p' : Program} (h : lower m limit = .ok p)
    (h' : lower m' limit' = .ok p') : ∃ locals : LocalId → LocalId,
    (p.bindersBut (.body callable)).map locals = p'.bindersBut (.body callable) ∧
      (∀ slot ≠ .body callable, (p.slotBinders slot).map locals = p'.slotBinders slot) ∧
      ∀ i ∈ p.localsBut callable, ∀ j ∈ p.localsBut callable, i.index < j.index →
        (locals i).index < (locals j).index := by
  obtain ⟨_, _, htraced⟩ := lower_traced h
  obtain ⟨_, _, htraced'⟩ := lower_traced h'
  have hslots : p'.slots = p.slots := by
    rw [← p'.slots_stripped, htraced.stripped_same htraced' hm.signatures, p.slots_stripped]
  have hrest : p'.bindersBut (.body callable) =
      (p.slots.filter (· ≠ .body callable)).flatMap p'.slotBinders := by
    rw [Program.bindersBut, hslots]
  have hlength : ∀ slot ∈ p.slots.filter (· ≠ .body callable),
      (p.slotBinders slot).length = (p'.slotBinders slot).length := fun slot hslot =>
    htraced.length_slotBinders htraced' hm.signatures hm.blocks
      (of_decide_eq_true (List.mem_filter.mp hslot).2)
  obtain ⟨locals, hlocals, hordered⟩ := exists_ordered
    ((length_flatMap_of_forall hlength).trans (congrArg List.length hrest.symm))
    (pairwise_bindersBut h (.body callable)) (pairwise_bindersBut h' (.body callable))
  refine ⟨locals, hlocals, ?_, ?_⟩
  · intro slot hne
    by_cases hslot : slot ∈ p.slots
    · refine map_of_flatMap hlength (hlocals.trans hrest) slot ?_
      exact List.mem_filter.mpr ⟨hslot, decide_eq_true hne⟩
    · rw [htraced.slotBinders_of_notMem hslot,
        htraced'.slotBinders_of_notMem (by rwa [hslots])]
      rfl
  · intro i hi j hj
    exact hordered i ((mem_localsBut h).mp hi) j ((mem_localsBut h).mp hj)

/-- **A body is lowered without regard to other bodies.** If one block is replaced, what is declared
stays as it is, and so do all other bodies, up to ids of locals that keep their order. -/
theorem lower_sameBut {m m' : Syntax.Module} {callable : Callable} (hm : DifferAt callable m m')
    {limit limit' : Option Nat} {p p' : Program} (h : lower m limit = .ok p)
    (h' : lower m' limit' = .ok p') : ∃ locals, Program.SameBut callable locals p p' := by
  obtain ⟨_, _, htraced⟩ := lower_traced h
  obtain ⟨_, _, htraced'⟩ := lower_traced h'
  obtain ⟨locals, hlocals, hmap, hordered⟩ := exists_locals_matched hm h h'
  refine ⟨locals, htraced.stripped_same htraced' hm.signatures, ?_, ?_, other?_of_slotBinders hmap,
    ⟨?_, ?_, ?_⟩, hordered, ?_⟩
  · intro c
    rw [htraced'.isSome_body?, htraced.isSome_body?, isSome_blockOf?_same hm.signatures]
  · intro c hc
    have hbody := (htraced.body_same htraced' hm.signatures hm.blocks hmap hc).body
    rwa [Callable.rename_ofLocals] at hbody
  · intro id hid
    rw [mem_localsBut h', ← hlocals]
    exact List.mem_map.mpr ⟨id, (mem_localsBut h).mp hid, rfl⟩
  · intro i hi j hj heq
    rcases lt_trichotomy i.index j.index with hlt | heq' | hgt
    · exact absurd (congrArg LocalId.index heq) (hordered i hi j hj hlt).ne
    · exact congrArg LocalId.mk heq'
    · exact absurd (congrArg LocalId.index heq) (hordered j hj i hi hgt).ne'
  · intro id' hid'
    rw [mem_localsBut h', ← hlocals] at hid'
    obtain ⟨id, hid, rfl⟩ := List.mem_map.mp hid'
    exact ⟨id, (mem_localsBut h).mpr hid, rfl⟩
  · intro id hid
    obtain ⟨slot, _, hne, hmem⟩ := Program.mem_bindersBut.mp ((mem_localsBut h).mp hid)
    exact htraced.getLocal?_same htraced' hm.signatures hm.blocks hmap hne hmem

/-- `parcelModule` with another block for the weight of a parcel, which binds one name more. -/
def heavyParcelModule : Syntax.Module :=
  { parcelModule with
    models := parcelModule.models.modify 0 fun md =>
      { md with methods := md.methods.modify 0 fun f =>
          { f with body := [
              .declare "wrapping" (.int 3),
              .declare "stamps" (.call (.function "stamp") []),
              .ret (some (.binary .add (.var "wrapping") (.var "stamps")))] } } }

/-- The program of `heavyParcelModule`. -/
def heavyParcelProgram : Program :=
  match lower heavyParcelModule none with
  | .ok p => p
  | .error _ => { name := "" }

theorem lower_heavyParcelModule : lower heavyParcelModule none = .ok heavyParcelProgram := by
  cbv

theorem parcelModule_differAt : DifferAt (.function ⟨2⟩) parcelModule heavyParcelModule := by
  have hsame (f : Syntax.Function) : f.SameSignature f := ⟨rfl, rfl, rfl⟩
  refine ⟨⟨rfl, rfl, .cons (hsame _) (.cons (hsame _) .nil), ?_⟩, ?_⟩
  · refine .cons ⟨rfl, rfl, .cons ⟨rfl, rfl, rfl⟩ (.cons (hsame _) .nil), rfl, rfl⟩ ?_
    exact .cons ⟨rfl, rfl, .cons (hsame _) .nil, rfl, rfl⟩ .nil
  · rintro (⟨_ | _ | _ | _ | _ | i⟩ | ⟨_ | _ | i⟩ | ⟨_ | _ | i⟩) hne
    case refine_2.function.succ.succ.zero => exact absurd rfl hne
    all_goals rfl

theorem parcelProgram_sameBut :
    DifferAt (.function ⟨2⟩) parcelModule heavyParcelModule ∧
      lower parcelModule none = .ok parcelProgram ∧
      lower heavyParcelModule none = .ok heavyParcelProgram ∧
      heavyParcelProgram.locals.size = parcelProgram.locals.size + 1 ∧
      ∃ locals, Program.SameBut (.function ⟨2⟩) locals parcelProgram heavyParcelProgram :=
  ⟨parcelModule_differAt, lower_parcelModule, lower_heavyParcelModule, by cbv,
    lower_sameBut parcelModule_differAt lower_parcelModule lower_heavyParcelModule⟩

end Scribe.Lowering
