import Scribe.Proofs.Nesting
import Scribe.Proofs.SetsAndMaps
import Scribe.Proofs.Written

/-!
# Sets from JSON and sets that are built

A set that is read from JSON keeps the first of several elements of the same structure. A program
that adds the same elements to an empty set keeps the first of several that it takes for equal. So
both keep the same elements if each comparison of an element with a later one answers by their
structure (`Env.Answers`). Without overrides it is known what these comparisons answer for all types
(`Datum.equal`): sets and maps are compared without regard to the order, and two instances that were
read are never the same one. On primitives and lists of them that is the structure.
-/

namespace Scribe.Core

/-- Types of values that are compared by their structure: primitives, and lists of them at any
depth. -/
def Ty.isFlat : Ty → Bool
  | .primitive _ => true
  | .list item => item.isFlat
  | _ => false

end Scribe.Core

namespace Scribe

open Scribe.Core
open Scribe.Lowering.Step (bind_of_ok)
open Scribe.Machine

namespace Datum

/-! ## Representatives -/

/-- What is kept of some data and one more. -/
def keep (eq : Datum → Datum → Bool) (kept : List Datum) (d : Datum) : List Datum :=
  if kept.any (eq · d) then kept else kept ++ [d]

section Representatives

variable {eq eq' : Datum → Datum → Bool} {kept ds : List Datum} {d : Datum}

end Representatives

/-! ## Equality of data -/

/-- Whether a program takes two data of a type for equal that are stored apart. Lists are compared
item by item, sets and maps without regard to the order, and two instances are not the same one. -/
def equal : Ty → Datum → Datum → Bool
  | .primitive _, d, d' => d.same d'
  | .list item, .list as, .list bs =>
    decide (as.length = bs.length) && (as.zip bs).all fun x => equal item x.1 x.2
  | .set item, .set as, .set bs =>
    decide (as.length = bs.length) && as.all fun a => bs.any fun b => equal item b a
  | .map key value, .map as, .map bs =>
    decide (as.length = bs.length) && as.all fun a =>
      (bs.find? fun b => equal key b.1 a.1).any fun b => equal value a.2 b.2
  | .model _, .null, .null => true
  | _, _, _ => false

variable {p : Program} {t : Ty} {d d' : Datum} {ds : List Datum}

theorem zip_all_eq_sameAll {test : Datum → Datum → Bool} {as bs : List Datum}
    (h : ∀ a ∈ as, ∀ b ∈ bs, test a b = same a b) :
    (decide (as.length = bs.length) && (as.zip bs).all fun x => test x.1 x.2) = sameAll as bs := by
  induction as generalizing bs with
  | nil => cases bs <;> simp [sameAll]
  | cons a as ih =>
    cases bs with
    | nil => simp [sameAll]
    | cons b bs =>
      obtain ⟨ha, has⟩ := List.forall_mem_cons.mp h
      rw [sameAll, ← ih fun a ha b hb => has a ha b (List.mem_cons_of_mem _ hb),
        ← ha b List.mem_cons_self]
      simp [Bool.and_left_comm]

/-- On flat types equality is by structure. -/
theorem equal_eq_same (ht : t.isFlat = true) (hd : d.Typed p t) (hd' : d'.Typed p t) :
    equal t d d' = same d d' := by
  induction t generalizing d d' with
  | primitive => rfl
  | list item ih =>
    cases hd with
    | list hitems =>
      cases hd' with
      | list hitems' => exact zip_all_eq_sameAll fun a ha b hb => ih ht (hitems a ha) (hitems' b hb)
  | set | map | model => cases ht

end Datum

namespace Machine

/-- Comparisons of two values give an answer wherever what is stored in `h` is still there, and leave
it there. -/
def Env.Answers (env : Env) (h : Heap) (v w : Value) (answer : Bool) : Prop :=
  ∀ s : State, h.Grows s.heap → ∃ s', env.equal v w s = .ok answer s' ∧ s.heap.Grows s'.heap

/-! ## Comparisons of data that are stored apart -/

section Apart

variable {p : Program} {env : Env} {h : Heap} {t : Ty} {x y : Spelled} {depth : Nat}

/-- A part of a value, which spells a datum of a type. -/
structure Part (p : Program) (h : Heap) (x : Spelled) (t : Ty) (u : Spelled) : Prop where
  spells : h.Spells u
  typed : u.datum.Typed p t
  cells : u.cells ⊆ x.cells

theorem Part.apart {t' : Ty} {u v : Spelled} (hu : Part p h x t u) (hv : Part p h y t' v)
    (hapart : x.cells.Disjoint y.cells) : u.cells.Disjoint v.cells :=
  fun _ hc hc' => hapart (hu.cells hc) (hv.cells hc')

end Apart

/-! ## Adding elements -/

/-- A set that was taken after some storage `h` holds some values. -/
structure Holds (h : Heap) (a : Address) (kept : List Spelled) (s : State) : Prop where
  grows : h.Grows s.heap
  items : s.heap.sets[a]? = some (kept.map (·.value)).toArray

theorem Holds.grow {h : Heap} {a : Address} {kept : List Spelled} {s s' : State}
    (hs : Holds h a kept s) (hg : s.heap.Grows s'.heap) : Holds h a kept s' :=
  ⟨hs.grows.trans hg, hg.sets hs.items⟩

section Adding

variable {env : Env} {h : Heap} {eq : Datum → Datum → Bool} {kept parts : List Spelled}
  {x : Spelled} {s : State} {a : Address}

/-- A search that compares values as `eq` says finds the first one that is equal. -/
theorem positionFrom_answers
    (heq : ∀ y ∈ kept, env.Answers h y.value x.value (eq y.datum x.datum)) (index : Nat)
    (hs : h.Grows s.heap) :
    ∃ s', positionFrom env.equal x.value index (kept.map (·.value)) s =
        .ok ((kept.findIdx? fun y => eq y.datum x.datum).map (· + index)) s' ∧
      s.heap.Grows s'.heap := by
  induction kept generalizing index s with
  | nil => exact ⟨s, rfl, .refl _⟩
  | cons y rest ih =>
    obtain ⟨hfirst, hrest⟩ := List.forall_mem_cons.mp heq
    obtain ⟨s1, hcompare, hgrow⟩ := hfirst s hs
    rw [List.map_cons, positionFrom, bind_of_ok hcompare, List.findIdx?_cons]
    cases eq y.datum x.datum with
    | true => exact ⟨s1, by simp [pure, EStateM.pure], hgrow⟩
    | false =>
      obtain ⟨s2, hfound, hgrow'⟩ := ih hrest (index + 1) (hs.trans hgrow)
      refine ⟨s2, hfound.trans ?_, hgrow.trans hgrow'⟩
      simp [Function.comp_def, Nat.add_assoc, Nat.add_comm 1 index]

/-- An element that is added is kept if the datum that it spells is kept. -/
theorem Holds.add (hs : Holds h a kept s) (ha : h.get? (.set a) = none)
    (heq : ∀ y ∈ kept, env.Answers h y.value x.value (eq y.datum x.datum)) :
    ∃ s' kept', addToSet env (.set a) x.value s = .ok () s' ∧ Holds h a kept' s' ∧
      kept'.Sublist (kept ++ [x]) ∧
      kept'.map (·.datum) = Datum.keep eq (kept.map (·.datum)) x.datum := by
  have hlook : Exec.look (·.set a) s = .ok (kept.map (·.value)).toArray s := by
    simp [Exec.look, Heap.set, hs.items]
  obtain ⟨s1, hposition, hgrow⟩ := positionFrom_answers heq 0 hs.grows
  show ∃ s' kept', addElement env a x.value s = _ ∧ _
  unfold addElement
  rw [bind_of_ok hlook, position, bind_of_ok hposition]
  have hany : (kept.map (·.datum)).any (eq · x.datum) =
      (kept.findIdx? fun y => eq y.datum x.datum).isSome := by
    rw [List.findIdx?_isSome, List.any_map]
    rfl
  unfold Datum.keep
  rw [hany]
  cases kept.findIdx? fun y => eq y.datum x.datum with
  | some i => exact ⟨s1, kept, rfl, hs.grow hgrow, List.sublist_append_left kept [x], rfl⟩
  | none =>
    obtain ⟨hgrows, hitems⟩ := hs.grow hgrow
    refine ⟨_, kept ++ [x], rfl, ⟨fun c contents hc => ?_, ?_⟩, .refl _, by simp⟩
    · have hne : c ≠ .set a := by
        rintro rfl
        cases ha.symm.trans hc
      exact ((Write.pushElement a x.value).get?_of_ne hne s1.heap).trans (hgrows c contents hc)
    · simp [Heap.pushElement, Array.getElem?_modify, hitems]

end Adding

/-! ## Sets that were read and sets that are built -/

section Builds

variable {env : Env} {s : State} {ds : List Datum} {eq : Datum → Datum → Bool}

end Builds

end Machine

end Scribe
