import Scribe.Proofs.Cycles
import Scribe.Proofs.Meaning

/-!
# Equality is an equivalence

Comparisons go through containers and stop at instances, so what they need is asked of the values
that one comes to through containers alone (`Heap.Within`): none contains itself in that way, no set
has two equal elements, no map two equal keys, and no instance has an equality of its own
(`Heap.Plain`).

Such values are nested no deeper than there are pieces of storage (`Plain.comparable`), so every
comparison that may go that deep comes to the same answer, `Heap.equal`, and answers whether two
values mean the same (`Plain.equal_iff`). That makes equality an equivalence, and the answer the same
without a look at addresses (`valuesEqual_equivalence`).
-/

namespace Scribe.Machine

open Scribe.Core
open Relation (ReflTransGen)

/-! ## Plain values -/

namespace Heap

/-- Storage without the fields of instances. -/
def containers (h : Heap) : Heap :=
  { h with objects := #[] }

/-- A value holds another one in its storage. -/
def Has (h : Heap) (v u : Value) : Prop :=
  ∃ c, v.cell? = some c ∧ u ∈ h.contents c

/-- The values that one comes to from a value through containers alone, itself among them. -/
def Within (h : Heap) : Value → Value → Prop :=
  ReflTransGen h.containers.Has

/-- Whether a comparison finds two values in some storage equal. It may go as deep as there are
pieces of storage. -/
def equal (p : Program) (h : Heap) (l r : Value) : Bool :=
  match valuesEqual (.ofFuel p (h.size + 1)) (h.size + 1) l r { heap := h } with
  | .ok answer _ => answer
  | .error _ _ => false

/-- What comparisons need of a single value: an instance has no equality of its own, a set no two
equal elements, a map no two equal keys. -/
def Regular (p : Program) (h : Heap) : Value → Prop
  | .object model _ => ∃ m, p.getModel? model = some m ∧ m.equality = none
  | .set a => (h.set a).toList.Pairwise fun x y => h.equal p x y = false
  | .map a => (h.map a).toList.Pairwise fun d e => h.equal p d.1 e.1 = false
  | _ => True

/-- A value that does not contain itself through containers, and in which all is as comparisons
need it. -/
structure Plain (p : Program) (h : Heap) (v : Value) : Prop where
  acyclic : ¬h.containers.ContainsItself v
  regular : ∀ u, h.Within v u → h.Regular p u

variable {p : Program} {h : Heap} {v u : Value}

theorem size_containers_le (h : Heap) : h.containers.size ≤ h.size := by
  simp [size, containers]

theorem Plain.has (hv : h.Plain p v) (hu : h.containers.Has v u) : h.Plain p u where
  acyclic hcycle := by
    obtain ⟨c, hc, hmem⟩ := hu
    exact hv.acyclic (hcycle.of_mem hc hmem)
  regular w hw := hv.regular w (.head hu hw)

/-! ### Checks -/

/-- Whether a test holds of all that one comes to through containers, and nothing lies deeper than
`depth`. -/
def everyWithin (h : Heap) (test : Value → Bool) : Nat → Value → Bool
  | 0, _ => false
  | depth + 1, v => test v &&
      (v.cell?.elim [] h.containers.contents).all (h.everyWithin test depth)

variable {depth : Nat}

theorem everyWithin.has {test : Value → Bool} (hv : h.everyWithin test (depth + 1) v = true)
    (hu : h.containers.Has v u) : h.everyWithin test depth u = true := by
  obtain ⟨c, hc, hu⟩ := hu
  have hparts := (Bool.and_eq_true_iff.mp hv).2
  rw [hc] at hparts
  exact List.all_eq_true.mp hparts u hu

theorem everyWithin.test {test : Value → Bool} (hv : h.everyWithin test depth v = true)
    (hu : h.Within v u) : test u = true := by
  induction depth generalizing v with
  | zero => cases hv
  | succ depth ih =>
    obtain rfl | ⟨w, hw, hu⟩ := hu.cases_head
    · exact (Bool.and_eq_true_iff.mp hv).1
    · exact ih (everyWithin.has hv hw) hu

theorem everyWithin.acyclic {test : Value → Bool} (hv : h.everyWithin test depth v = true) :
    ¬h.containers.ContainsItself v := by
  intro hcycle
  induction depth generalizing v with
  | zero => cases hv
  | succ depth ih =>
    obtain ⟨c, hc, u, hu, hcycle⟩ := hcycle.exists_mem
    exact ih (everyWithin.has hv ⟨c, hc, hu⟩) hcycle

instance : DecidablePred (h.Regular p)
  | .object model _ =>
    decidable_of_iff ((p.getModel? model).any (·.equality.isNone) = true) (by
      simp [Regular, Option.any_eq_true])
  | .set a => inferInstanceAs (Decidable ((h.set a).toList.Pairwise _))
  | .map a => inferInstanceAs (Decidable ((h.map a).toList.Pairwise _))
  | .void | .null | .bool _ | .int _ | .rune _ | .string _ | .list _ =>
    inferInstanceAs (Decidable True)

theorem plain_of_everyWithin (hv : h.everyWithin (fun u => decide (h.Regular p u)) depth v = true) :
    h.Plain p v :=
  ⟨everyWithin.acyclic hv, fun _ hu => of_decide_eq_true (everyWithin.test hv hu)⟩

end Heap

/-! ## Comparable values are found equal if they mean the same -/

section Comparable

variable {p : Program} {h : Heap} {n : Nat} {l r v : Value}

theorem valuesEqual_reads {env : Env} (henv : env.program = p) {depth : Nat}
    (hl : h.Comparable p n l) (hr : h.Comparable p n r) (hdepth : n ≤ depth) :
    Reads h (valuesEqual env depth l r) (h.alike n l r) := by
  rw [valuesEqual_eq_comparison]
  exact comparison_reads henv (fun _ _ => of_decide_eq_true) hl hr hdepth

theorem equal_eq_alike (hl : h.Comparable p n l) (hr : h.Comparable p n r)
    (hn : n ≤ h.size + 1) : h.equal p l r = h.alike n l r := by
  rw [Heap.equal, valuesEqual_reads rfl hl hr hn _ rfl]

theorem meaning_ne_of_not_equal (hl : h.Comparable p n l) (hr : h.Comparable p n r)
    (hn : n ≤ h.size + 1) (hne : h.equal p l r = false) : h.meaning n l ≠ h.meaning n r := by
  rw [equal_eq_alike hl hr hn] at hne
  exact of_decide_eq_false hne

/-- A plain value is comparable with as much depth as there are pieces of storage that were not
entered on the way to it. -/
theorem Heap.Plain.comparable_of_way (hv : h.Plain p v) {path : List Cell}
    (hway : Way h.containers path v) (hsize : h.containers.size < path.length + n)
    (hn : n ≤ h.size + 1) : h.Comparable p n v := by
  induction n generalizing path v with
  | zero =>
    have hle := hway.length_le
    omega
  | succ n ih =>
    have hparts {c : Cell} (hc : v.cell? = some c) (u : Value)
        (hu : u ∈ h.containers.contents c) : h.Comparable p n u := by
      refine ih (hv.has ⟨c, hc, hu⟩) (hway.enter hc hu) ?_ (by omega)
      rw [List.length_cons]
      omega
    have hregular := hv.regular v .refl
    cases v with
    | list a => exact hparts rfl
    | set a =>
      refine ⟨hparts rfl, List.pairwise_map.mpr ?_⟩
      exact hregular.imp_of_mem fun hx hy =>
        meaning_ne_of_not_equal (hparts rfl _ hx) (hparts rfl _ hy) (by omega)
    | map a =>
      have hentries (e : Value × Value) (he : e ∈ (h.map a).toList) :
          h.Comparable p n e.1 ∧ h.Comparable p n e.2 :=
        ⟨hparts rfl _ (List.mem_flatMap.mpr ⟨e, he, by simp⟩),
          hparts rfl _ (List.mem_flatMap.mpr ⟨e, he, by simp⟩)⟩
      refine ⟨hentries, List.pairwise_map.mpr ?_⟩
      exact hregular.imp_of_mem fun hd he =>
        meaning_ne_of_not_equal (hentries _ hd).1 (hentries _ he).1 (by omega)
    | object model a => exact hregular
    | _ => trivial

end Comparable

/-! ## Plain values are found equal if they mean the same -/

namespace Heap.Plain

variable {p : Program} {h : Heap} {l r v : Value}

theorem comparable (hv : h.Plain p v) : h.Comparable p (h.size + 1) v := by
  refine hv.comparable_of_way (.start hv.acyclic) ?_ (Nat.le_refl _)
  have hle := h.size_containers_le
  rw [List.length_nil]
  omega

theorem equal_eq (hl : h.Plain p l) (hr : h.Plain p r) :
    h.equal p l r = h.alike (h.size + 1) l r :=
  equal_eq_alike hl.comparable hr.comparable (Nat.le_refl _)

theorem equal_iff (hl : h.Plain p l) (hr : h.Plain p r) :
    h.equal p l r = true ↔ h.meaning (h.size + 1) l = h.meaning (h.size + 1) r := by
  rw [hl.equal_eq hr, Heap.alike, decide_eq_true_iff]

variable {env : Env} (henv : env.program = p) {depth : Nat} (hdepth : h.size < depth)

include henv hdepth

/-- A comparison of plain values comes to its answer, whichever containers it takes for equal
because they are the same one. -/
theorem comparison_reads {known : Address → Address → Bool}
    (hknown : ∀ a b, known a b = true → a = b) (hl : h.Plain p l) (hr : h.Plain p r) :
    Reads h (comparison known env depth l r) (h.equal p l r) := by
  rw [hl.equal_eq hr]
  exact Machine.comparison_reads henv hknown hl.comparable hr.comparable hdepth

theorem valuesEqual_reads (hl : h.Plain p l) (hr : h.Plain p r) :
    Reads h (valuesEqual env depth l r) (h.equal p l r) := by
  rw [valuesEqual_eq_comparison]
  exact comparison_reads henv hdepth (fun _ _ => of_decide_eq_true) hl hr

end Heap.Plain

/-- On plain values equality is an equivalence, and comparisons that never take two containers for
equal because they are the same one come to the same answer. -/
theorem valuesEqual_equivalence {p : Program} {h : Heap} {a b c : Value} (ha : h.Plain p a)
    (hb : h.Plain p b) (hc : h.Plain p c) {env : Env} (henv : env.program = p) {depth : Nat}
    (hdepth : h.size < depth) {s : State} (hs : s.heap = h) :
    valuesEqual env depth a a s = .ok true s ∧
    (∃ answer, valuesEqual env depth a b s = .ok answer s ∧
      valuesEqual env depth b a s = .ok answer s) ∧
    (valuesEqual env depth a b s = .ok true s → valuesEqual env depth b c s = .ok true s →
      valuesEqual env depth a c s = .ok true s) ∧
    comparison (fun _ _ => false) env depth a b s = valuesEqual env depth a b s := by
  have hanswer {l r : Value} (hl : h.Plain p l) (hr : h.Plain p r) :
      valuesEqual env depth l r s = .ok (h.equal p l r) s :=
    Heap.Plain.valuesEqual_reads henv hdepth hl hr s hs
  have hfull : comparison (fun _ _ => false) env depth a b s = .ok (h.equal p a b) s :=
    Heap.Plain.comparison_reads henv hdepth (by rintro _ _ ⟨⟩) ha hb s hs
  have hsymm : h.equal p b a = h.equal p a b := by
    rw [Bool.eq_iff_iff, hb.equal_iff ha, ha.equal_iff hb, eq_comm]
  refine ⟨?_, ⟨h.equal p a b, hanswer ha hb, ?_⟩, ?_, hfull.trans (hanswer ha hb).symm⟩
  · rw [hanswer ha ha, (ha.equal_iff ha).mpr rfl]
  · rw [hanswer hb ha, hsymm]
  · intro hab hbc
    rw [hanswer ha hb, EStateM.Result.ok.injEq, ha.equal_iff hb] at hab
    rw [hanswer hb hc, EStateM.Result.ok.injEq, hb.equal_iff hc] at hbc
    rw [hanswer ha hc, (ha.equal_iff hc).mpr (hab.1.trans hbc.1)]

/-! ## A sample -/

/-- Boxes that may hold another box. -/
def boxProgram : Program where
  name := "Boxes"
  models := #[{ name := "Box", fields := [⟨"inner", .model ⟨0⟩⟩], fieldMap := [("inner", 0)] }]
  modelMap := [("Box", ⟨0⟩)]

/-- A box that holds itself, in lists, in sets of lists and in maps whose keys are such sets. What is
the same is stored more than once, and in another order. -/
def boxHeap : Heap where
  lists := #[#[.int 1, .object ⟨0⟩ 0], #[.int 1, .object ⟨0⟩ 0]]
  sets := #[#[.list 0, .int 2], #[.int 2, .list 1]]
  maps := #[
    #[(.set 0, .string "full"), (.list 0, .null)],
    #[(.list 1, .null), (.set 1, .string "full")],
    #[(.set 1, .string "full"), (.list 0, .null)]]
  objects := #[⟨"Box", #[.object ⟨0⟩ 0]⟩]

theorem boxHeap_plain : ∀ i < 3, boxHeap.Plain boxProgram (.map i) := by
  have hchecked : ∀ i < 3,
      boxHeap.everyWithin (fun u => decide (boxHeap.Regular boxProgram u)) 4 (.map i) = true := by
    decide +kernel
  exact fun i hi => Heap.plain_of_everyWithin (hchecked i hi)

theorem boxMaps_equivalence : boxHeap.Plain boxProgram (.map 0) ∧ boxHeap.Plain boxProgram (.map 1) ∧
    boxHeap.Plain boxProgram (.map 2) ∧
    let s : State := { heap := boxHeap }
    valuesEqual (.ofFuel boxProgram 16) 16 (.map 0) (.map 0) s = .ok true s ∧
    valuesEqual (.ofFuel boxProgram 16) 16 (.map 1) (.map 0) s = .ok true s ∧
    valuesEqual (.ofFuel boxProgram 16) 16 (.map 0) (.map 2) s = .ok true s ∧
    comparison (fun _ _ => false) (.ofFuel boxProgram 16) 16 (.map 0) (.map 1) s = .ok true s := by
  have h0 := boxHeap_plain 0 (by decide)
  have h1 := boxHeap_plain 1 (by decide)
  have h2 := boxHeap_plain 2 (by decide)
  refine ⟨h0, h1, h2, ?_⟩
  intro s
  have hab : valuesEqual (.ofFuel boxProgram 16) 16 (.map 0) (.map 1) s = .ok true s := rfl
  have hbc : valuesEqual (.ofFuel boxProgram 16) 16 (.map 1) (.map 2) s = .ok true s := rfl
  obtain ⟨hrefl, ⟨answer, hanswer, hsymm⟩, htrans, hfull⟩ := valuesEqual_equivalence h0 h1 h2
    (show (Env.ofFuel boxProgram 16).program = boxProgram from rfl)
    (show boxHeap.size < 16 by decide) (show s.heap = boxHeap from rfl)
  cases hab.symm.trans hanswer
  exact ⟨hrefl, hsymm, htrans hab hbc, hfull.trans hab⟩

end Scribe.Machine
