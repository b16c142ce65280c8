import Mathlib.Data.List.Nodup
import Scribe.Core.Program

/-!
# Maps from names

A binding that is made is found, and a name that was free comes last (`lookup_assocInsert`,
`assocInsert_of_notMem`). A map indexes the things that have names if it holds each of them once,
under its name (`NameMap.Indexes`); then looking up a name finds what has it, and nothing else.
-/

namespace Scribe.Core

/-! ## Bindings -/

section Bindings

variable {κ α : Type} [DecidableEq κ]

theorem lookup_cons (key key' : κ) (v : α) (bindings : List (κ × α)) :
    ((key, v) :: bindings).lookup key' = if key' = key then some v else bindings.lookup key' := by
  by_cases h : key' = key
  · rw [if_pos h, h, List.lookup_cons_self]
  · have hbeq : (key' == key) = false := beq_eq_false_iff_ne.mpr h
    rw [if_neg h, List.lookup_cons, hbeq]

/-- What is looked up after a binding was made. -/
theorem lookup_assocInsert (key key' : κ) (v : α) (bindings : List (κ × α)) :
    (assocInsert key v bindings).lookup key' =
      if key' = key then some v else bindings.lookup key' := by
  induction bindings with
  | nil => exact lookup_cons key key' v []
  | cons binding rest ih =>
    obtain ⟨k, u⟩ := binding
    unfold assocInsert
    by_cases hk : k = key
    · subst hk
      rw [if_pos rfl, lookup_cons, lookup_cons]
      by_cases h : key' = k
      · rw [if_pos h, if_pos h]
      · rw [if_neg h, if_neg h, if_neg h]
    · rw [if_neg hk, lookup_cons, lookup_cons, ih]
      by_cases h : key' = k
      · have hne : key' ≠ key := fun heq => hk (h.symm.trans heq)
        rw [if_pos h, if_neg hne, if_pos h]
      · rw [if_neg h, if_neg h]

theorem assocInsert_of_notMem {key : κ} {v : α} {bindings : List (κ × α)}
    (h : key ∉ bindings.map (·.1)) : assocInsert key v bindings = bindings ++ [(key, v)] := by
  induction bindings with
  | nil => rfl
  | cons binding rest ih =>
    obtain ⟨k, u⟩ := binding
    rw [List.map_cons, List.mem_cons, not_or] at h
    rw [assocInsert, if_neg (Ne.symm h.1), ih h.2, List.cons_append]

theorem keys_assocInsert_of_mem {key : κ} {v : α} {bindings : List (κ × α)}
    (h : key ∈ bindings.map (·.1)) :
    (assocInsert key v bindings).map (·.1) = bindings.map (·.1) := by
  induction bindings with
  | nil => cases h
  | cons binding rest ih =>
    obtain ⟨k, u⟩ := binding
    unfold assocInsert
    by_cases hk : k = key
    · rw [if_pos hk, List.map_cons, List.map_cons, hk]
    · rw [List.map_cons, List.mem_cons] at h
      rw [if_neg hk, List.map_cons, ih (h.resolve_left (Ne.symm hk)), List.map_cons]

theorem lookup_eq_some_iff_mem {key : κ} {v : α} {bindings : List (κ × α)}
    (h : (bindings.map (·.1)).Nodup) :
    bindings.lookup key = some v ↔ (key, v) ∈ bindings := by
  induction bindings with
  | nil => exact ⟨by rintro ⟨⟩, by rintro ⟨⟩⟩
  | cons binding rest ih =>
    obtain ⟨k, u⟩ := binding
    obtain ⟨hfresh, hrest⟩ := List.nodup_cons.mp h
    rw [lookup_cons, List.mem_cons, Prod.mk.injEq]
    by_cases hk : key = k
    · subst hk
      have hnot : (key, v) ∉ rest := fun hmem => hfresh (List.mem_map.mpr ⟨_, hmem, rfl⟩)
      rw [if_pos rfl, Option.some.injEq, or_iff_left hnot, eq_comm]
      exact (and_iff_right rfl).symm
    · rw [if_neg hk, ih hrest, or_iff_right fun heq => hk heq.1]

theorem lookup_eq_none {key : κ} {bindings : List (κ × α)} :
    bindings.lookup key = none ↔ key ∉ bindings.map (·.1) := by
  simp only [List.lookup_eq_none_iff, bne_iff_ne, List.mem_map, not_exists, not_and, ne_comm]

end Bindings

/-! ## Names -/

namespace NameMap

variable {α : Type}

/-- The names in a map. -/
def names (map : NameMap α) : List String :=
  map.map (·.1)

/-- The map of names that are numbered from `n` on. -/
def ofNames (id : Nat → α) (n : Nat) (names : List String) : NameMap α :=
  (names.zipIdx n).map fun x => (x.1, id x.2)

theorem names_append (map map' : NameMap α) : names (map ++ map') = map.names ++ map'.names :=
  List.map_append

theorem names_ofNames (id : Nat → α) (n : Nat) (xs : List String) :
    (ofNames id n xs).names = xs := by
  unfold ofNames names
  rw [List.map_map]
  exact List.zipIdx_map_fst n xs

theorem ids_ofNames (id : Nat → α) (n : Nat) (xs : List String) :
    (ofNames id n xs).map (·.2) = (List.range' n xs.length).map id := by
  unfold ofNames
  rw [List.map_map, ← List.zipIdx_map_snd n xs, List.map_map]
  rfl

theorem ofNames_append (id : Nat → α) (n : Nat) (xs ys : List String) :
    ofNames id n (xs ++ ys) = ofNames id n xs ++ ofNames id (n + xs.length) ys := by
  unfold ofNames
  rw [List.zipIdx_append, List.map_append, Nat.add_comm]

theorem mem_ofNames {id : Nat → α} {xs : List String} {name : String} {a : α} :
    (name, a) ∈ ofNames id 0 xs ↔ ∃ i, xs[i]? = some name ∧ id i = a := by
  unfold ofNames
  rw [List.mem_map]
  constructor
  · rintro ⟨⟨_, i⟩, hx, heq⟩
    obtain ⟨rfl, rfl⟩ := Prod.mk.inj heq
    exact ⟨i, List.mem_zipIdx_iff_getElem?.mp hx, rfl⟩
  · rintro ⟨i, hi, rfl⟩
    exact ⟨(name, i), List.mem_zipIdx_iff_getElem?.mpr hi, rfl⟩

/-- A map holds everything that has a name, each thing once, under its name. -/
structure Indexes (map : NameMap α) (Named : String → α → Prop) : Prop where
  nodup : map.names.Nodup
  mem : ∀ name a, (name, a) ∈ map ↔ Named name a

variable {map : NameMap α} {Named Named' : String → α → Prop}

theorem Indexes.lookup_eq_some (h : map.Indexes Named) {name : String} {a : α} :
    map.lookup name = some a ↔ Named name a :=
  (lookup_eq_some_iff_mem h.nodup).trans (h.mem name a)

theorem Indexes.congr (h : map.Indexes Named) (heq : ∀ name a, Named name a ↔ Named' name a) :
    map.Indexes Named' :=
  ⟨h.nodup, fun name a => (h.mem name a).trans (heq name a)⟩

/-- One more thing with a name that was free. -/
theorem Indexes.append (h : map.Indexes Named) {name : String} (hfresh : name ∉ map.names) {a : α}
    (heq : ∀ name' b, Named' name' b ↔ Named name' b ∨ name' = name ∧ b = a) :
    Indexes (map ++ [(name, a)]) Named' := by
  refine ⟨?_, fun name' b => ?_⟩
  · unfold names
    rw [List.map_append]
    exact List.nodup_append_comm.mp (List.nodup_cons.mpr ⟨hfresh, h.nodup⟩)
  · rw [List.mem_append, List.mem_singleton, Prod.mk.injEq, h.mem, heq]

theorem indexes_nil (h : ∀ name a, ¬Named name a) : Indexes [] Named :=
  ⟨List.nodup_nil, fun name a => ⟨by rintro ⟨⟩, fun hnamed => (h name a hnamed).elim⟩⟩

/-- The names of the entries of a table, in order. -/
theorem indexes_ofNames {β : Type} {xs : List β} {nameOf : β → String} {id : Nat → α}
    {index : α → Nat} (hid : ∀ a, id (index a) = a) (hindex : ∀ i, index (id i) = i)
    (hnodup : (xs.map nameOf).Nodup) :
    (ofNames id 0 (xs.map nameOf)).Indexes fun name a =>
      ∃ x, xs[index a]? = some x ∧ nameOf x = name := by
  refine ⟨by rw [names_ofNames]; exact hnodup, fun name a => mem_ofNames.trans ?_⟩
  simp only [List.getElem?_map, Option.map_eq_some_iff]
  constructor
  · rintro ⟨i, hi, rfl⟩
    rw [hindex]
    exact hi
  · exact fun h => ⟨index a, h, hid a⟩

end NameMap

end Scribe.Core
