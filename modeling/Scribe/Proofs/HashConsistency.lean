import Scribe.Proofs.Equivalence

/-!
# Hashes agree with equality

The hash of a value is a function of what it means (`Meaning.hash`): what a set or a map holds is
added up, and sums do not depend on their order, wrapped around or not. Instances without a hash of
their own have that of their model. So equal values have the same hash, and values that differ only
in the order in which their sets and maps were filled have, too (`hashValue_consistent`).
-/

namespace Scribe.Machine

open Scribe.Core
open Relation (ReflTransGen)

/-! ## Hashes of meanings -/

/-- The hash of an atom. -/
def atomHash : Value → Int64
  | .bool b => if b then 1 else 0
  | .int n => n
  | .rune c => runeCode c
  | .string s => hashString s
  | _ => 0

/-- The sum of hashes. -/
def sumHashes (hashes : Multiset Int64) : Int64 :=
  hashes.fold (fun x y => x + y) 0

theorem hashCollection_eq_sumHashes (hashes : List Int64) :
    hashCollection hashes = sumHashes hashes :=
  (Multiset.coe_fold_l _ _ _).symm

/-- The hash of what a value means. An instance at an address is one of the model there. -/
def Meaning.hash (models : Address → ModelId) : (depth : Nat) → Meaning depth → Int64
  | 0, _ => 0
  | depth + 1, meaning =>
    match (meaning : Shape (Meaning depth)) with
    | .atom v => atomHash v
    | .object a => Int64.ofNat (models a).index
    | .list items => hashSequence (items.map (Meaning.hash models depth))
    | .set elements => sumHashes (elements.map (Meaning.hash models depth))
    | .map entries => sumHashes (entries.map fun e =>
        Meaning.hash models depth e.1 * 31 + Meaning.hash models depth e.2)

/-- What hashes need of a single value: if it is an instance, its model has no hash of its own.
Equality compares instances by their addresses and hashes go by their models, so `models` gives each
address one model: an instance is created as one of a model and stays one of it. -/
def Value.HashedBy (p : Program) (models : Address → ModelId) : Value → Prop
  | .object model a => models a = model ∧ ∃ m, p.getModel? model = some m ∧ m.hashing = none
  | _ => True

instance {p : Program} {models : Address → ModelId} : DecidablePred (Value.HashedBy p models)
  | .object model a =>
    decidable_of_iff (models a = model ∧ (p.getModel? model).any (·.hashing.isNone) = true) (by
      simp [Value.HashedBy, Option.any_eq_true])
  | .void | .null | .bool _ | .int _ | .rune _ | .string _ | .list _ | .set _ | .map _ =>
    inferInstanceAs (Decidable True)

/-- All that one comes to through containers is as hashes need it. -/
def Heap.HashedBy (p : Program) (models : Address → ModelId) (h : Heap) (v : Value) : Prop :=
  ∀ u, h.Within v u → u.HashedBy p models

theorem Heap.HashedBy.has {p : Program} {models : Address → ModelId} {h : Heap} {v u : Value}
    (hv : h.HashedBy p models v) (hu : h.containers.Has v u) : h.HashedBy p models u :=
  fun w hw => hv w (ReflTransGen.head hu hw)

section Hashes

variable {p : Program} {models : Address → ModelId} {h : Heap} {env : Env} (henv : env.program = p)

include henv

/-- The hash of a value is that of what it means. -/
theorem hashValue_reads {n depth : Nat} {v : Value} (hv : h.Comparable p n v)
    (hmodels : h.HashedBy p models v) (hdepth : n ≤ depth) :
    Reads h (hashValue env depth v) (Meaning.hash models n (h.meaning n v)) := by
  induction n generalizing depth v with
  | zero => exact hv.elim
  | succ n ih =>
    obtain ⟨depth, rfl⟩ : ∃ k, depth = k + 1 := ⟨depth - 1, by omega⟩
    have hparts {c : Cell} (hc : v.cell? = some c) {u : Value} (hu : u ∈ h.containers.contents c)
        (hcomparable : h.Comparable p n u) :
        Reads h (hashValue env depth u) (Meaning.hash models n (h.meaning n u)) :=
      ih hcomparable (hmodels.has ⟨c, hc, hu⟩) (Nat.le_of_succ_le_succ hdepth)
    cases v with
    | list a =>
      refine .bind (.look _) (.bind (.hashAll fun u hu => hparts rfl hu (hv u hu)) ?_)
      refine (Reads.pure _).congr (congrArg hashSequence ?_)
      rw [List.map_map]
      rfl
    | set a =>
      refine .bind (.look _) (.bind (.hashAll fun u hu => hparts rfl hu (hv.1 u hu)) ?_)
      refine (Reads.pure _).congr ((hashCollection_eq_sumHashes _).trans (congrArg sumHashes ?_))
      rw [Multiset.map_coe, List.map_map]
      rfl
    | map a =>
      have hentry (e : Value × Value) (he : e ∈ (h.map a).toList) :=
        And.intro
          (hparts rfl (List.mem_flatMap.mpr ⟨e, he, List.mem_cons_self⟩) (hv.1 e he).1)
          (hparts rfl (List.mem_flatMap.mpr ⟨e, he, by simp⟩) (hv.1 e he).2)
      refine .bind (.look _) (.bind (.hashEntries
        (g := fun u => Meaning.hash models n (h.meaning n u)) hentry) ?_)
      refine (Reads.pure _).congr ((hashCollection_eq_sumHashes _).trans (congrArg sumHashes ?_))
      rw [Multiset.map_coe, List.map_map]
      rfl
    | object model a =>
      obtain ⟨hmodel, m, hm, hhashing⟩ := hmodels _ .refl
      intro s _
      unfold hashValue
      dsimp only
      rw [henv, hm, Exec.ofOption, pure_bind, hhashing, ← hmodel]
      rfl
    | _ => exact .pure _

end Hashes

/-! ## Another order -/

/-- Values that differ at most in the order in which sets and maps were filled, at any depth. -/
inductive Heap.Reordered (h : Heap) : Value → Value → Prop where
  | refl (v : Value) : h.Reordered v v
  | list {a b : Address} (hitems : List.Forall₂ h.Reordered (h.list a).toList (h.list b).toList) :
      h.Reordered (.list a) (.list b)
  | set {a b : Address} {elements : List Value} (hperm : elements.Perm (h.set b).toList)
      (helements : List.Forall₂ h.Reordered (h.set a).toList elements) :
      h.Reordered (.set a) (.set b)
  | map {a b : Address} {entries : List (Value × Value)} (hperm : entries.Perm (h.map b).toList)
      (hkeys : List.Forall₂ h.Reordered ((h.map a).toList.map (·.1)) (entries.map (·.1)))
      (hvalues : List.Forall₂ h.Reordered ((h.map a).toList.map (·.2)) (entries.map (·.2))) :
      h.Reordered (.map a) (.map b)

theorem map_eq_of_forall₂ {α β : Type} {R : α → α → Prop} {f : α → β} {as bs : List α}
    (hR : ∀ a b, R a b → f a = f b) (h : List.Forall₂ R as bs) : as.map f = bs.map f := by
  rw [← List.forall₂_eq_eq_eq, List.forall₂_map_left_iff, List.forall₂_map_right_iff]
  exact h.imp hR

/-- The order in which sets and maps were filled does not change what a value means. -/
theorem Heap.Reordered.meaning_eq {h : Heap} {n : Nat} {l r : Value} (hlr : h.Reordered l r) :
    h.meaning n l = h.meaning n r := by
  induction n generalizing l r with
  | zero => rfl
  | succ n ih =>
    have hsame (u v : Value) (huv : h.Reordered u v) : h.meaning n u = h.meaning n v := ih huv
    cases hlr with
    | refl => rfl
    | list hitems => exact meaning_list_eq_iff.mpr (map_eq_of_forall₂ hsame hitems)
    | set hperm helements =>
      rw [meaning_set_eq_iff, map_eq_of_forall₂ hsame helements]
      exact Multiset.coe_eq_coe.mpr (hperm.map _)
    | @map a b entries hperm hkeys hvalues =>
      have hentries : (h.map a).toList.map (Prod.map (h.meaning n) (h.meaning n)) =
          entries.map (Prod.map (h.meaning n) (h.meaning n)) := by
        have hkeys := map_eq_of_forall₂ hsame hkeys
        have hvalues := map_eq_of_forall₂ hsame hvalues
        rw [List.map_map, List.map_map] at hkeys hvalues
        exact (List.zip_map' ..).symm.trans
          ((congrArg₂ List.zip hkeys hvalues).trans (List.zip_map' ..))
      rw [meaning_map_eq_iff, hentries]
      exact Multiset.coe_eq_coe.mpr (hperm.map _)

/-! ## Plain values -/

/-- If plain values are equal, or differ at most in the order in which their sets and maps were
filled, then they have the same hash. -/
theorem hashValue_consistent {p : Program} {models : Address → ModelId} {h : Heap} {a b : Value}
    (ha : h.Plain p a) (hb : h.Plain p b) (hma : h.HashedBy p models a)
    (hmb : h.HashedBy p models b) {env : Env} (henv : env.program = p) {depth : Nat}
    (hdepth : h.size < depth) {s : State} (hs : s.heap = h) :
    (∃ x, hashValue env depth a s = .ok x s) ∧
    (valuesEqual env depth a b s = .ok true s →
      hashValue env depth a s = hashValue env depth b s) ∧
    (h.Reordered a b → valuesEqual env depth a b s = .ok true s ∧
      hashValue env depth a s = hashValue env depth b s) := by
  have hhash {v : Value} (hv : h.Plain p v) (hm : h.HashedBy p models v) :
      hashValue env depth v s =
        .ok (Meaning.hash models (h.size + 1) (h.meaning (h.size + 1) v)) s :=
    hashValue_reads henv hv.comparable hm hdepth s hs
  have hequal : valuesEqual env depth a b s = .ok (h.equal p a b) s :=
    Heap.Plain.valuesEqual_reads henv hdepth ha hb s hs
  have hsame (heq : h.meaning (h.size + 1) a = h.meaning (h.size + 1) b) :
      hashValue env depth a s = hashValue env depth b s := by
    rw [hhash ha hma, hhash hb hmb, heq]
  refine ⟨⟨_, hhash ha hma⟩, fun htrue => hsame ?_, fun hab => ⟨?_, hsame hab.meaning_eq⟩⟩
  · rw [hequal, EStateM.Result.ok.injEq, ha.equal_iff hb] at htrue
    exact htrue.1
  · rw [hequal, (ha.equal_iff hb).mpr hab.meaning_eq]

theorem boxMaps_hash : boxHeap.Plain boxProgram (.map 0) ∧ boxHeap.Plain boxProgram (.map 1) ∧
    boxHeap.HashedBy boxProgram (fun _ => ⟨0⟩) (.map 0) ∧
    boxHeap.HashedBy boxProgram (fun _ => ⟨0⟩) (.map 1) ∧
    let s : State := { heap := boxHeap }
    valuesEqual (.ofFuel boxProgram 16) 16 (.map 0) (.map 1) s = .ok true s ∧
    hashValue (.ofFuel boxProgram 16) 16 (.map 0) s =
      hashValue (.ofFuel boxProgram 16) 16 (.map 1) s := by
  have hmodels : ∀ i < 2, boxHeap.HashedBy boxProgram (fun _ => ⟨0⟩) (.map i) := by
    have hchecked : ∀ i < 2, boxHeap.everyWithin
        (fun u => decide (u.HashedBy boxProgram fun _ => ⟨0⟩)) 4 (.map i) = true := by
      decide +kernel
    exact fun i hi u hu => of_decide_eq_true (Heap.everyWithin.test (hchecked i hi) hu)
  have h0 := boxHeap_plain 0 (by decide)
  have h1 := boxHeap_plain 1 (by decide)
  refine ⟨h0, h1, hmodels 0 (by decide), hmodels 1 (by decide), ?_⟩
  intro s
  have hequal : valuesEqual (.ofFuel boxProgram 16) 16 (.map 0) (.map 1) s = .ok true s := rfl
  obtain ⟨_, hsame, _⟩ := hashValue_consistent h0 h1 (hmodels 0 (by decide)) (hmodels 1 (by decide))
    (show (Env.ofFuel boxProgram 16).program = boxProgram from rfl)
    (show boxHeap.size < 16 by decide) (show s.heap = boxHeap from rfl)
  exact ⟨hequal, hsame hequal⟩

end Scribe.Machine
