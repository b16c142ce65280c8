import Mathlib.Data.List.Forall2
import Scribe.Machine.Run
import Scribe.Proofs.Growth

/-!
# Types of storage

Storage is shared and can be cyclic, so the type of a value is not found by walking through it. A
typing gives types to addresses; a value has a type under a typing (`HasType`), and storage is typed
if every cell that the typing knows holds what its type says (`HeapTyped`). A typing may know a part
of storage only.

Types are up to null: null has every type but `void`.
-/

namespace Scribe.Machine

open Scribe.Core

/-! ## Lists side by side -/

section Lists

variable {α β : Type} {R : α → β → Prop} {as : List α} {bs : List β}

variable {i : Nat} {b : β}

theorem forall₂_getElem? (h : List.Forall₂ R as bs) (hb : bs[i]? = some b) :
    ∃ a, as[i]? = some a ∧ R a b := by
  induction h generalizing i with
  | nil => cases hb
  | @cons a _ _ _ ha _ ih =>
    cases i with
    | zero =>
      cases hb
      exact ⟨a, rfl, ha⟩
    | succ i => exact ih hb

theorem forall₂_set (h : List.Forall₂ R as bs) {a : α} (hb : bs[i]? = some b) (ha : R a b) :
    List.Forall₂ R (as.set i a) bs := by
  induction h generalizing i with
  | nil => exact .nil
  | cons hfirst hrest ih =>
    cases i with
    | zero =>
      cases hb
      exact .cons ha hrest
    | succ i => exact .cons hfirst (ih hb)

theorem forall_mem_of_replicate {n : Nat} (h : List.Forall₂ R as (List.replicate n b)) :
    ∀ a ∈ as, R a b := by
  induction n generalizing as with
  | zero =>
    cases h
    exact List.forall_mem_nil _
  | succ n ih =>
    cases h with
    | cons ha has => exact List.forall_mem_cons.mpr ⟨ha, ih has⟩

theorem forall₂_replicate (h : ∀ a ∈ as, R a b) :
    List.Forall₂ R as (List.replicate as.length b) := by
  induction as with
  | nil => exact .nil
  | cons a as ih =>
    obtain ⟨ha, has⟩ := List.forall_mem_cons.mp h
    exact .cons ha (ih has)

end Lists

/-! ## Cells -/

section Cells

variable {κ α : Type}

/-- The second assignment says what the first one says, and maybe more. -/
def Extends (known known' : Address → Option κ) : Prop :=
  ∀ a k, known a = some k → known' a = some k

/-- An assignment that also says something about `a`. -/
def assignAt (known : Address → Option κ) (a : Address) (k : κ) : Address → Option κ :=
  fun b => if b = a then some k else known b

/-- Every cell that an assignment knows is there and holds what it should. -/
def Cells (known : Address → Option κ) (cells : Array α) (P : κ → α → Prop) : Prop :=
  ∀ a k, known a = some k → ∃ c, cells[a]? = some c ∧ P k c

theorem Extends.refl (known : Address → Option κ) : Extends known known :=
  fun _ _ h => h

theorem assignAt_same (known : Address → Option κ) (a : Address) (k : κ) :
    assignAt known a k a = some k :=
  if_pos rfl

theorem extends_assignAt {known : Address → Option κ} {a : Address} (h : known a = none) (k : κ) :
    Extends known (assignAt known a k) := by
  intro b k' hb
  have hne : b ≠ a := by
    rintro rfl
    rw [h] at hb
    cases hb
  exact (if_neg hne).trans hb

theorem Extends.assignAt {known known' : Address → Option κ} (h : Extends known known')
    (a : Address) (k : κ) : Extends (assignAt known a k) (assignAt known' a k) := by
  intro b k' hb
  unfold Machine.assignAt at hb ⊢
  by_cases hab : b = a
  · rw [if_pos hab] at hb ⊢
    exact hb
  · rw [if_neg hab] at hb ⊢
    exact h b k' hb

namespace Cells

variable {known : Address → Option κ} {cells : Array α} {P Q : κ → α → Prop}

theorem imp (h : Cells known cells P) (hPQ : ∀ k c, P k c → Q k c) : Cells known cells Q := by
  intro a k ha
  obtain ⟨c, hc, hP⟩ := h a k ha
  exact ⟨c, hc, hPQ k c hP⟩

/-- Nothing is known about the next address. -/
theorem fresh (h : Cells known cells P) : known cells.size = none := by
  cases hk : known cells.size with
  | none => rfl
  | some k =>
    obtain ⟨c, hc, _⟩ := h _ k hk
    rw [Array.getElem?_size] at hc
    cases hc

theorem push (h : Cells known cells P) {k : κ} {c : α} (hc : P k c) :
    Cells (assignAt known cells.size k) (cells.push c) P := by
  intro a k' ha
  unfold assignAt at ha
  by_cases hlast : a = cells.size
  · rw [if_pos hlast] at ha
    cases ha
    rw [hlast]
    exact ⟨c, Array.getElem?_push_size, hc⟩
  · rw [if_neg hlast] at ha
    obtain ⟨c', hc', hP⟩ := h a k' ha
    exact ⟨c', getElem?_push_of_some hc' c, hP⟩

theorem modify (h : Cells known cells P) {a : Address} {k : κ} (ha : known a = some k) {f : α → α}
    (hf : ∀ c, P k c → P k (f c)) : Cells known (cells.modify a f) P := by
  intro b k' hb
  obtain ⟨c, hc, hP⟩ := h b k' hb
  rw [Array.getElem?_modify]
  by_cases hab : a = b
  · subst hab
    cases ha.symm.trans hb
    rw [if_pos rfl, hc]
    exact ⟨f c, rfl, hf c hP⟩
  · rw [if_neg hab]
    exact ⟨c, hc, hP⟩

end Cells

end Cells

/-! ## Typings -/

/-- Types of addresses: the element types of lists and sets, the key and value types of maps, the
models of objects. -/
structure Typing where
  lists : Address → Option Ty := fun _ => none
  sets : Address → Option Ty := fun _ => none
  maps : Address → Option (Ty × Ty) := fun _ => none
  objects : Address → Option ModelId := fun _ => none

/-- A typing that knows more. -/
structure Typing.Le (τ τ' : Typing) : Prop where
  lists : Extends τ.lists τ'.lists
  sets : Extends τ.sets τ'.sets
  maps : Extends τ.maps τ'.maps
  objects : Extends τ.objects τ'.objects

namespace Typing

theorem Le.refl (τ : Typing) : τ.Le τ :=
  ⟨Extends.refl _, Extends.refl _, Extends.refl _, Extends.refl _⟩

theorem Le.trans {τ1 τ2 τ3 : Typing} (h1 : τ1.Le τ2) (h2 : τ2.Le τ3) : τ1.Le τ3 :=
  ⟨fun a k h => h2.lists a k (h1.lists a k h), fun a k h => h2.sets a k (h1.sets a k h),
    fun a k h => h2.maps a k (h1.maps a k h), fun a k h => h2.objects a k (h1.objects a k h)⟩

theorem empty_le (τ : Typing) : Typing.Le {} τ :=
  ⟨by rintro _ _ ⟨⟩, by rintro _ _ ⟨⟩, by rintro _ _ ⟨⟩, by rintro _ _ ⟨⟩⟩

def withList (τ : Typing) (a : Address) (item : Ty) : Typing :=
  { τ with lists := assignAt τ.lists a item }

def withSet (τ : Typing) (a : Address) (item : Ty) : Typing :=
  { τ with sets := assignAt τ.sets a item }

def withMap (τ : Typing) (a : Address) (key value : Ty) : Typing :=
  { τ with maps := assignAt τ.maps a (key, value) }

def withObject (τ : Typing) (a : Address) (id : ModelId) : Typing :=
  { τ with objects := assignAt τ.objects a id }

section

variable {τ τ' : Typing} (h : τ.Le τ') (a : Address)

include h

theorem Le.withList (item : Ty) : (τ.withList a item).Le (τ'.withList a item) :=
  ⟨h.lists.assignAt a item, h.sets, h.maps, h.objects⟩

theorem Le.withSet (item : Ty) : (τ.withSet a item).Le (τ'.withSet a item) :=
  ⟨h.lists, h.sets.assignAt a item, h.maps, h.objects⟩

theorem Le.withMap (key value : Ty) : (τ.withMap a key value).Le (τ'.withMap a key value) :=
  ⟨h.lists, h.sets, h.maps.assignAt a (key, value), h.objects⟩

theorem Le.withObject (id : ModelId) : (τ.withObject a id).Le (τ'.withObject a id) :=
  ⟨h.lists, h.sets, h.maps, h.objects.assignAt a id⟩

end

end Typing

/-! ## Values -/

/-- A value of a type, up to null. -/
inductive HasType (τ : Typing) : Value → Ty → Prop where
  | void : HasType τ .void .void
  | null {t : Ty} (h : t ≠ .void) : HasType τ .null t
  | bool (value : Bool) : HasType τ (.bool value) .bool
  | int (value : Int64) : HasType τ (.int value) .int
  | rune (value : Char) : HasType τ (.rune value) .rune
  | string (value : String) : HasType τ (.string value) .string
  | list {a : Address} {item : Ty} (h : τ.lists a = some item) : HasType τ (.list a) (.list item)
  | set {a : Address} {item : Ty} (h : τ.sets a = some item) : HasType τ (.set a) (.set item)
  | map {a : Address} {key value : Ty} (h : τ.maps a = some (key, value)) :
      HasType τ (.map a) (.map key value)
  | object {a : Address} {id : ModelId} (h : τ.objects a = some id) :
      HasType τ (.object id a) (.model id)

/-- Values of types, one for each. -/
abbrev AllTyped (τ : Typing) : List Value → List Ty → Prop :=
  List.Forall₂ (HasType τ)

variable {τ τ' : Typing}

variable {v : Value} {t item : Ty} {items : Array Value} {entries : Array (Value × Value)}

theorem HasType.mono (h : τ.Le τ') (hv : HasType τ v t) : HasType τ' v t := by
  cases hv with
  | void => exact .void
  | null ht => exact .null ht
  | bool b => exact .bool b
  | int n => exact .int n
  | rune c => exact .rune c
  | string s => exact .string s
  | list ha => exact .list (h.lists _ _ ha)
  | set ha => exact .set (h.sets _ _ ha)
  | map ha => exact .map (h.maps _ _ ha)
  | object ha => exact .object (h.objects _ _ ha)

/-- Void is the only value of type `void`, and has no other type. -/
theorem HasType.void_iff {τ : Typing} (h : HasType τ v t) : v = .void ↔ t = .void := by
  cases h with
  | void => exact ⟨fun _ => rfl, fun _ => rfl⟩
  | null ht => exact ⟨by rintro ⟨⟩, fun heq => (ht heq).elim⟩
  | _ => exact ⟨by rintro ⟨⟩, by rintro ⟨⟩⟩

theorem AllTyped.mono (h : τ.Le τ') {vs : List Value} {ts : List Ty} (hvs : AllTyped τ vs ts) :
    AllTyped τ' vs ts :=
  hvs.imp fun _ _ => .mono h

/-! ## Storage -/

/-- The items of a list or a set have its element type. -/
def ItemsTyped (τ : Typing) (item : Ty) (items : Array Value) : Prop :=
  ∀ v ∈ items, HasType τ v item

/-- The entries of a map have its key and value types. -/
def EntriesTyped (τ : Typing) (t : Ty × Ty) (entries : Array (Value × Value)) : Prop :=
  ∀ e ∈ entries, HasType τ e.1 t.1 ∧ HasType τ e.2 t.2

/-- The fields of an object have the types that its model declares. -/
def FieldsTyped (p : Program) (τ : Typing) (id : ModelId) (fields : Array Value) : Prop :=
  ∃ m, p.getModel? id = some m ∧ AllTyped τ fields.toList (m.fields.map (·.type))

/-- An object has the name of its model, and fields of the types that the model declares. -/
def ObjectTyped (p : Program) (τ : Typing) (id : ModelId) (o : Instance) : Prop :=
  ∃ m, p.getModel? id = some m ∧ o.name = m.name ∧
    AllTyped τ o.fields.toList (m.fields.map (·.type))

/-- Every cell that a typing knows is there and holds what its type says. -/
structure HeapTyped (p : Program) (τ : Typing) (h : Heap) : Prop where
  lists : Cells τ.lists h.lists (ItemsTyped τ)
  sets : Cells τ.sets h.sets (ItemsTyped τ)
  maps : Cells τ.maps h.maps (EntriesTyped τ)
  objects : Cells τ.objects h.objects (ObjectTyped p τ)

theorem ItemsTyped.empty (τ : Typing) (item : Ty) : ItemsTyped τ item #[] :=
  fun v hv => absurd hv (Array.not_mem_empty v)

theorem EntriesTyped.empty (τ : Typing) (t : Ty × Ty) : EntriesTyped τ t #[] :=
  fun e he => absurd he (Array.not_mem_empty e)

theorem ItemsTyped.mono (hle : τ.Le τ') (h : ItemsTyped τ item items) : ItemsTyped τ' item items :=
  fun v hv => (h v hv).mono hle

theorem EntriesTyped.mono (hle : τ.Le τ') {t : Ty × Ty} (h : EntriesTyped τ t entries) :
    EntriesTyped τ' t entries :=
  fun e he => ⟨(h e he).1.mono hle, (h e he).2.mono hle⟩

theorem ObjectTyped.mono {p : Program} (hle : τ.Le τ') {id : ModelId} {o : Instance}
    (h : ObjectTyped p τ id o) : ObjectTyped p τ' id o := by
  obtain ⟨m, hm, hname, hall⟩ := h
  exact ⟨m, hm, hname, hall.mono hle⟩

theorem ItemsTyped.mem_toList {τ : Typing} (h : ItemsTyped τ item items) :
    ∀ v ∈ items.toList, HasType τ v item :=
  fun v hv => h v (Array.mem_toList_iff.mp hv)

theorem EntriesTyped.mem_toList {τ : Typing} {t : Ty × Ty} (h : EntriesTyped τ t entries) :
    ∀ e ∈ entries.toList, HasType τ e.1 t.1 ∧ HasType τ e.2 t.2 :=
  fun e he => h e (Array.mem_toList_iff.mp he)

/-- A typing that knows nothing says nothing about storage. -/
theorem HeapTyped.empty (p : Program) (h : Heap) : HeapTyped p {} h :=
  ⟨by rintro _ _ ⟨⟩, by rintro _ _ ⟨⟩, by rintro _ _ ⟨⟩, by rintro _ _ ⟨⟩⟩

namespace HeapTyped

variable {p : Program} {τ : Typing} {h : Heap} (hh : HeapTyped p τ h)

include hh

/-! ### Reading -/

variable {a : Address}

variable {item key value : Ty} {id : ModelId} {items : Array Value} {v : Value}

theorem items_list (ha : τ.lists a = some item) : ItemsTyped τ item (h.list a) := by
  obtain ⟨items, hitems, hall⟩ := hh.lists a item ha
  rw [Heap.list, hitems]
  exact hall

theorem items_set (ha : τ.sets a = some item) : ItemsTyped τ item (h.set a) := by
  obtain ⟨items, hitems, hall⟩ := hh.sets a item ha
  rw [Heap.set, hitems]
  exact hall

theorem entries_map {t : Ty × Ty} (ha : τ.maps a = some t) : EntriesTyped τ t (h.map a) := by
  obtain ⟨entries, hentries, hall⟩ := hh.maps a t ha
  rw [Heap.map, hentries]
  exact hall

theorem fields_object (ha : τ.objects a = some id) : FieldsTyped p τ id (h.fields a) := by
  obtain ⟨o, ho, m, hm, _, hall⟩ := hh.objects a id ha
  rw [Heap.fields, ho]
  exact ⟨m, hm, hall⟩

/-! ### New cells -/

theorem newList (hitems : ItemsTyped τ item items) :
    τ.Le (τ.withList h.lists.size item) ∧
      HeapTyped p (τ.withList h.lists.size item) (h.newList items).2 := by
  have hle : τ.Le (τ.withList h.lists.size item) :=
    ⟨extends_assignAt hh.lists.fresh item, Extends.refl _, Extends.refl _, Extends.refl _⟩
  exact ⟨hle, (hh.lists.push hitems).imp fun _ _ => .mono hle, hh.sets.imp fun _ _ => .mono hle,
    hh.maps.imp fun _ _ => .mono hle, hh.objects.imp fun _ _ => .mono hle⟩

theorem newSet (hitems : ItemsTyped τ item items) :
    τ.Le (τ.withSet h.sets.size item) ∧
      HeapTyped p (τ.withSet h.sets.size item) (h.newSet items).2 := by
  have hle : τ.Le (τ.withSet h.sets.size item) :=
    ⟨Extends.refl _, extends_assignAt hh.sets.fresh item, Extends.refl _, Extends.refl _⟩
  exact ⟨hle, hh.lists.imp fun _ _ => .mono hle, (hh.sets.push hitems).imp fun _ _ => .mono hle,
    hh.maps.imp fun _ _ => .mono hle, hh.objects.imp fun _ _ => .mono hle⟩

theorem newMap {entries : Array (Value × Value)} (hentries : EntriesTyped τ (key, value) entries) :
    τ.Le (τ.withMap h.maps.size key value) ∧
      HeapTyped p (τ.withMap h.maps.size key value) (h.newMap entries).2 := by
  have hle : τ.Le (τ.withMap h.maps.size key value) :=
    ⟨Extends.refl _, Extends.refl _, extends_assignAt hh.maps.fresh (key, value), Extends.refl _⟩
  exact ⟨hle, hh.lists.imp fun _ _ => .mono hle, hh.sets.imp fun _ _ => .mono hle,
    (hh.maps.push hentries).imp fun _ _ => .mono hle, hh.objects.imp fun _ _ => .mono hle⟩

theorem newObject {name : String} {fields : Array Value}
    (hobject : ObjectTyped p τ id ⟨name, fields⟩) : τ.Le (τ.withObject h.objects.size id) ∧
      HeapTyped p (τ.withObject h.objects.size id) (h.newObject name fields).2 := by
  have hle : τ.Le (τ.withObject h.objects.size id) :=
    ⟨Extends.refl _, Extends.refl _, Extends.refl _, extends_assignAt hh.objects.fresh id⟩
  exact ⟨hle, hh.lists.imp fun _ _ => .mono hle, hh.sets.imp fun _ _ => .mono hle,
    hh.maps.imp fun _ _ => .mono hle, (hh.objects.push hobject).imp fun _ _ => .mono hle⟩

/-! ### Changes -/

theorem pushItem {a : Address} (ha : τ.lists a = some item) (hv : HasType τ v item) :
    HeapTyped p τ (h.pushItem a v) := by
  refine ⟨hh.lists.modify ha fun items hitems w hw => ?_, hh.sets, hh.maps, hh.objects⟩
  obtain hw | rfl := Array.mem_push.mp hw
  · exact hitems w hw
  · exact hv

theorem popItem {a : Address} (ha : τ.lists a = some item) : HeapTyped p τ (h.popItem a) := by
  refine ⟨hh.lists.modify ha fun items hitems w hw => ?_, hh.sets, hh.maps, hh.objects⟩
  rw [← Array.mem_toList_iff, Array.toList_pop] at hw
  exact hitems w (Array.mem_toList_iff.mp ((List.dropLast_sublist _).subset hw))

theorem setItem {a : Address} (ha : τ.lists a = some item) (hv : HasType τ v item) (i : Nat) :
    HeapTyped p τ (h.setItem a i v) := by
  refine ⟨hh.lists.modify ha fun items hitems w hw => ?_, hh.sets, hh.maps, hh.objects⟩
  obtain hw | rfl := Array.mem_or_eq_of_mem_setIfInBounds hw
  · exact hitems w hw
  · exact hv

theorem pushElement {a : Address} (ha : τ.sets a = some item) (hv : HasType τ v item) :
    HeapTyped p τ (h.pushElement a v) := by
  refine ⟨hh.lists, hh.sets.modify ha fun items hitems w hw => ?_, hh.maps, hh.objects⟩
  obtain hw | rfl := Array.mem_push.mp hw
  · exact hitems w hw
  · exact hv

theorem pushEntry {a : Address} {k : Value} (ha : τ.maps a = some (key, value))
    (hk : HasType τ k key) (hv : HasType τ v value) : HeapTyped p τ (h.pushEntry a k v) := by
  refine ⟨hh.lists, hh.sets, hh.maps.modify ha fun entries hentries e he => ?_, hh.objects⟩
  obtain he | rfl := Array.mem_push.mp he
  · exact hentries e he
  · exact ⟨hk, hv⟩

theorem setEntry {a : Address} (ha : τ.maps a = some (key, value)) (hv : HasType τ v value)
    (i : Nat) : HeapTyped p τ (h.setEntry a i v) := by
  refine ⟨hh.lists, hh.sets, hh.maps.modify ha fun entries hentries e he => ?_, hh.objects⟩
  -- the entry that is changed keeps its key
  obtain ⟨j, hj⟩ := Array.getElem?_of_mem he
  rw [Array.getElem?_modify] at hj
  by_cases hij : i = j
  · rw [if_pos hij] at hj
    obtain ⟨e', he', rfl⟩ := Option.map_eq_some_iff.mp hj
    exact ⟨(hentries e' (Array.mem_of_getElem? he')).1, hv⟩
  · rw [if_neg hij] at hj
    exact hentries e (Array.mem_of_getElem? hj)

theorem setField {a : Address} {m : Model} {i : Nat} {f : Field} (ha : τ.objects a = some id)
    (hm : p.getModel? id = some m) (hf : m.fields[i]? = some f) (hv : HasType τ v f.type) :
    HeapTyped p τ (h.setField a i v) := by
  refine ⟨hh.lists, hh.sets, hh.maps, hh.objects.modify ha fun o ho => ?_⟩
  obtain ⟨m', hm', hname, hall⟩ := ho
  cases hm.symm.trans hm'
  refine ⟨m, hm, hname, ?_⟩
  rw [Array.toList_setIfInBounds]
  refine forall₂_set hall ?_ hv
  rw [List.getElem?_map, hf]
  rfl

end HeapTyped

end Scribe.Machine
