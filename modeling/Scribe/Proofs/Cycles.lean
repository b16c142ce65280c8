import Mathlib.Data.List.Nodup
import Mathlib.Data.List.Perm.Subperm
import Mathlib.Logic.Relation
import Scribe.Machine.Render

/-!
# Which values have a text

A value contains itself if one comes from its storage to a piece of storage that leads back to
itself (`Heap.ContainsItself`). Exactly these values have no text (`text?_eq_none_iff`).

Towards a value that does not contain itself no piece of storage is entered twice, so there are no
more pieces on the way than there are in all (`Way.length_le`). That is why the depths that the
search for cycles and the text start from are enough.
-/

namespace Scribe.Machine

open Scribe.Core
open Relation (TransGen ReflTransGen)

namespace Heap

/-- A piece of storage holds a value that lives in another one. -/
def Holds (h : Heap) (c d : Cell) : Prop :=
  ∃ v ∈ h.contents c, v.cell? = some d

/-- A value from whose storage one comes to a piece that leads back to itself. -/
def ContainsItself (h : Heap) (v : Value) : Prop :=
  ∃ c d, v.cell? = some c ∧ ReflTransGen h.Holds c d ∧ TransGen h.Holds d d

/-- All pieces of storage. -/
def cells (h : Heap) : List Cell :=
  (List.range h.lists.size).map .list ++ (List.range h.sets.size).map .set ++
    (List.range h.maps.size).map .map ++ (List.range h.objects.size).map .object

theorem length_cells (h : Heap) : h.cells.length = h.size := by
  simp only [cells, size, List.length_append, List.length_map, List.length_range]

variable {h : Heap} {v : Value} {c : Cell}

theorem lt_size_of_mem {α : Type} {cells : Array (Array α)} {a : Address} {x : α}
    (hx : x ∈ (cells[a]?.getD #[]).toList) : a < cells.size := by
  by_contra hge
  rw [Array.getElem?_eq_none (Nat.not_lt.mp hge)] at hx
  cases hx

/-- What holds something is there. -/
theorem mem_cells_of_mem_contents {u : Value} (hu : u ∈ h.contents c) : c ∈ h.cells := by
  unfold cells
  simp only [List.mem_append, List.mem_map, List.mem_range]
  cases c with
  | list a => exact .inl (.inl (.inl ⟨a, lt_size_of_mem hu, rfl⟩))
  | set a => exact .inl (.inl (.inr ⟨a, lt_size_of_mem hu, rfl⟩))
  | map a =>
    obtain ⟨_, he, _⟩ := List.mem_flatMap.mp hu
    exact .inl (.inr ⟨a, lt_size_of_mem he, rfl⟩)
  | object a =>
    have hu : u ∈ ((h.objects.map (·.fields))[a]?.getD #[]).toList := by
      rw [Array.getElem?_map]
      exact hu
    have hlt := lt_size_of_mem hu
    rw [Array.size_map] at hlt
    exact .inr ⟨a, hlt, rfl⟩

/-- A value that holds one that contains itself contains itself. -/
theorem ContainsItself.of_mem {u : Value} (hu : h.ContainsItself u) (hc : v.cell? = some c)
    (hmem : u ∈ h.contents c) : h.ContainsItself v := by
  obtain ⟨d, e, hd, hreach, hcycle⟩ := hu
  exact ⟨c, e, hc, .head ⟨u, hmem, hd⟩ hreach, hcycle⟩

/-- A value that contains itself holds one that does. -/
theorem ContainsItself.exists_mem (hv : h.ContainsItself v) :
    ∃ c, v.cell? = some c ∧ ∃ u ∈ h.contents c, h.ContainsItself u := by
  obtain ⟨c, d, hc, hreach, hcycle⟩ := hv
  refine ⟨c, hc, ?_⟩
  -- the first step of the way to the cycle, or of the cycle itself
  obtain rfl | ⟨e, ⟨u, hu, he⟩, hrest⟩ := hreach.cases_head
  · obtain ⟨e, ⟨u, hu, he⟩, hrest⟩ := TransGen.head'_iff.mp hcycle
    exact ⟨u, hu, e, c, he, hrest, hcycle⟩
  · exact ⟨u, hu, e, d, he, hrest, hcycle⟩

end Heap

/-! ## Ways -/

/-- The pieces of storage that were entered on the way to a value that does not contain itself. -/
structure Way (h : Heap) (path : List Cell) (v : Value) : Prop where
  nodup : path.Nodup
  present : ∀ c ∈ path, c ∈ h.cells
  leads : ∀ c ∈ path, ∀ d, v.cell? = some d → TransGen h.Holds c d
  acyclic : ¬h.ContainsItself v

namespace Way

variable {h : Heap} {path : List Cell} {v : Value}

theorem start (hv : ¬h.ContainsItself v) : Way h [] v :=
  ⟨.nil, List.forall_mem_nil _, List.forall_mem_nil _, hv⟩

theorem length_le (hw : Way h path v) : path.length ≤ h.size := by
  rw [← h.length_cells]
  exact (List.subperm_of_subset hw.nodup hw.present).length_le

/-- The storage of the value was not entered before. -/
theorem not_mem (hw : Way h path v) {c : Cell} (hc : v.cell? = some c) : c ∉ path :=
  fun hmem => hw.acyclic ⟨c, c, hc, .refl, hw.leads c hmem c hc⟩

theorem enter (hw : Way h path v) {c : Cell} (hc : v.cell? = some c) {u : Value}
    (hu : u ∈ h.contents c) : Way h (c :: path) u := by
  refine ⟨List.nodup_cons.mpr ⟨hw.not_mem hc, hw.nodup⟩,
    List.forall_mem_cons.mpr ⟨Heap.mem_cells_of_mem_contents hu, hw.present⟩,
    List.forall_mem_cons.mpr ⟨fun d hd => .single ⟨u, hu, hd⟩, fun b hb d hd => ?_⟩,
    fun hcycle => hw.acyclic (hcycle.of_mem hc hu)⟩
  exact (hw.leads b hb c hc).tail ⟨u, hu, hd⟩

end Way

/-! ## The search for cycles -/

theorem foldlM_of_forall {α β : Type} {I : β → Prop} {f : β → α → Option β} {as : List α}
    (hf : ∀ a ∈ as, ∀ b, I b → ∃ b', f b a = some b' ∧ I b') {b : β} (hb : I b) :
    ∃ b', as.foldlM f b = some b' ∧ I b' := by
  induction as generalizing b with
  | nil => exact ⟨b, rfl, hb⟩
  | cons a as ih =>
    obtain ⟨ha, has⟩ := List.forall_mem_cons.mp hf
    obtain ⟨b1, hb1, hI1⟩ := ha b hb
    obtain ⟨b2, hb2, hI2⟩ := ih has hI1
    exact ⟨b2, by rw [List.foldlM_cons, hb1]; exact hb2, hI2⟩

/-- Only what is on the way is being searched. -/
def Marks.EnteredIn (marks : Marks) (path : List Cell) : Prop :=
  ∀ c, marks[c]? = some Mark.entered → c ∈ path

variable {marks : Marks} {path : List Cell}

theorem Marks.EnteredIn.enter (h : marks.EnteredIn path) (c : Cell) :
    Marks.EnteredIn (marks.insert c .entered) (c :: path) := by
  intro d hd
  rw [Std.HashMap.getElem?_insert] at hd
  by_cases hcd : c = d
  · exact hcd ▸ List.mem_cons_self
  · rw [if_neg (by simpa using hcd)] at hd
    exact List.mem_cons_of_mem _ (h d hd)

theorem Marks.EnteredIn.settle {c : Cell} (h : marks.EnteredIn (c :: path)) :
    Marks.EnteredIn (marks.insert c .settled) path := by
  intro d hd
  rw [Std.HashMap.getElem?_insert] at hd
  by_cases hcd : c = d
  · rw [if_pos (by simpa using hcd)] at hd
    cases hd
  · rw [if_neg (by simpa using hcd)] at hd
    exact (List.mem_cons.mp (h d hd)).resolve_left fun heq => hcd heq.symm

/-- The search gets through a value that does not contain itself. -/
theorem settle_of_way {h : Heap} {depth : Nat} {v : Value} (hw : Way h path v)
    (hdepth : h.size < path.length + depth) (hmarks : marks.EnteredIn path) :
    ∃ marks' : Marks, settle h depth marks v = some marks' ∧ marks'.EnteredIn path := by
  induction depth generalizing path v marks with
  | zero =>
    have hle := hw.length_le
    omega
  | succ depth ih =>
    unfold settle
    cases hc : v.cell? with
    | none => exact ⟨marks, rfl, hmarks⟩
    | some c =>
      dsimp only
      cases hmark : marks[c]? with
      | some mark =>
        cases mark with
        | settled => exact ⟨marks, rfl, hmarks⟩
        | entered => exact (hw.not_mem hc (hmarks c hmark)).elim
      | none =>
        have hdeeper : h.size < (c :: path).length + depth := by
          rw [List.length_cons]
          omega
        obtain ⟨marks', hfold, hmarks'⟩ := foldlM_of_forall (I := (Marks.EnteredIn · (c :: path)))
          (fun u hu marks hm => ih (hw.enter hc hu) hdeeper hm) (hmarks.enter c)
        exact ⟨marks'.insert c .settled, by simp only [hfold]; rfl, hmarks'.settle⟩

/-! ## Texts -/

section Texts

variable {h : Heap}

variable {text : Value → Option String} {vs : Array Value} {v : Value} {depth : Nat}

theorem textsOf_isSome (hvs : ∀ v ∈ vs.toList, ∃ s, text v = some s) :
    ∃ ss, textsOf text vs = some ss := by
  unfold textsOf
  generalize vs.toList = vs at hvs
  induction vs with
  | nil => exact ⟨[], rfl⟩
  | cons v vs ih =>
    obtain ⟨hv, hvs⟩ := List.forall_mem_cons.mp hvs
    obtain ⟨s, hs⟩ := hv
    obtain ⟨ss, hss⟩ := ih hvs
    exact ⟨s :: ss, by rw [List.mapM_cons, hs, hss]; rfl⟩

theorem textsOf_eq_none (hmem : v ∈ vs.toList) (hv : text v = none) : textsOf text vs = none := by
  unfold textsOf
  generalize vs.toList = vs at hmem
  induction vs with
  | nil => cases hmem
  | cons u vs ih =>
    rw [List.mapM_cons]
    obtain rfl | hmem := List.mem_cons.mp hmem
    · rw [hv]
      rfl
    · rw [ih hmem]
      cases text u <;> rfl

theorem mem_contents_map {a : Address} {u : Value}
    (hu : u ∈ ((h.map a).map (·.1)).toList ∨ u ∈ ((h.map a).map (·.2)).toList) :
    u ∈ h.contents (.map a) := by
  rw [Array.toList_map, Array.toList_map, List.mem_map, List.mem_map] at hu
  obtain ⟨e, he, rfl⟩ | ⟨e, he, rfl⟩ := hu
  · exact List.mem_flatMap.mpr ⟨e, he, List.mem_cons_self⟩
  · exact List.mem_flatMap.mpr ⟨e, he, List.mem_cons_of_mem _ List.mem_cons_self⟩

theorem textWithin_of_way {path : List Cell} (hw : Way h path v)
    (hdepth : h.size < path.length + depth) : ∃ s, textWithin h depth v = some s := by
  induction depth generalizing path v with
  | zero =>
    have hle := hw.length_le
    omega
  | succ depth ih =>
    have hinner {c : Cell} (hc : v.cell? = some c) (vs : Array Value)
        (hvs : ∀ u ∈ vs.toList, u ∈ h.contents c) :
        ∃ ss, textsOf (textWithin h depth) vs = some ss := by
      refine textsOf_isSome fun u hu => ih (hw.enter hc (hvs u hu)) ?_
      rw [List.length_cons]
      omega
    unfold textWithin
    cases v with
    | list a =>
      obtain ⟨ss, hss⟩ := hinner rfl (h.list a) fun _ hu => hu
      exact ⟨_, by simp only [hss]; rfl⟩
    | set a =>
      obtain ⟨ss, hss⟩ := hinner rfl (h.set a) fun _ hu => hu
      exact ⟨_, by simp only [hss]; rfl⟩
    | map a =>
      obtain ⟨ks, hks⟩ := hinner rfl _ fun _ hu => mem_contents_map (.inl hu)
      obtain ⟨vs, hvs⟩ := hinner rfl _ fun _ hu => mem_contents_map (.inr hu)
      exact ⟨_, by simp only [hks, hvs]; rfl⟩
    | object model a =>
      obtain ⟨ss, hss⟩ := hinner rfl (h.fields a) fun _ hu => hu
      exact ⟨_, by simp only [hss]; rfl⟩
    | _ => exact ⟨_, rfl⟩

/-- The text of a value that contains itself would have no end. -/
theorem textWithin_eq_none (hv : h.ContainsItself v) : textWithin h depth v = none := by
  induction depth generalizing v with
  | zero => rfl
  | succ depth ih =>
    obtain ⟨c, hc, u, hu, hcycle⟩ := hv.exists_mem
    have hnone := ih hcycle
    unfold textWithin
    cases v with
    | list a | set a | object model a =>
      cases hc
      dsimp only
      rw [textsOf_eq_none hu hnone]
      rfl
    | map a =>
      cases hc
      obtain ⟨e, he, hu⟩ := List.mem_flatMap.mp hu
      have hkey : e.1 ∈ ((h.map a).map (·.1)).toList := by
        rw [Array.toList_map]
        exact List.mem_map.mpr ⟨e, he, rfl⟩
      have hvalue : e.2 ∈ ((h.map a).map (·.2)).toList := by
        rw [Array.toList_map]
        exact List.mem_map.mpr ⟨e, he, rfl⟩
      dsimp only
      obtain rfl | hu := List.mem_cons.mp hu
      · rw [textsOf_eq_none hkey hnone]
        rfl
      · rw [List.mem_singleton.mp hu] at hnone
        rw [textsOf_eq_none hvalue hnone]
        cases textsOf (textWithin h depth) ((h.map a).map (·.1)) <;> rfl
    | _ => cases hc

/-- The values without a text are those that contain themselves. -/
theorem text?_eq_none_iff : text? h v = none ↔ h.ContainsItself v := by
  constructor
  · intro hnone
    by_contra hv
    have hdepth : h.size < ([] : List Cell).length + (h.size + 1) := by
      rw [List.length_nil]
      omega
    have hmarks : Marks.EnteredIn {} [] := by
      intro c hc
      rw [Std.HashMap.getElem?_empty] at hc
      cases hc
    obtain ⟨_, hsettle, _⟩ := settle_of_way (.start hv) hdepth hmarks
    obtain ⟨s, hs⟩ := textWithin_of_way (.start hv) hdepth
    have hcyclic : isCyclic h v = false := by
      unfold isCyclic
      rw [hsettle]
      rfl
    rw [text?, hcyclic, if_neg Bool.false_ne_true, hs] at hnone
    cases hnone
  · intro hv
    unfold text?
    split
    · rfl
    · exact textWithin_eq_none hv

end Texts

end Scribe.Machine
