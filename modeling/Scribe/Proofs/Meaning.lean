import Mathlib.Data.List.Nodup
import Mathlib.Data.List.Perm.Subperm
import Mathlib.Data.Multiset.Fold
import Scribe.Proofs.Searches

/-!
# What values mean

Equality looks into containers, and into sets and maps without regard to order. So a list means the
list of what its items mean, and a set or a map the multiset of what it holds (`Heap.meaning`). This
goes down to atoms and instances; as storage may be nested without end, meanings are taken up to a
depth.

Where sets have no two elements and maps no two keys that mean the same (`Heap.Comparable`), a
comparison answers whether two values mean the same (`comparison_reads`). The search for the
elements of one side among those of the other is one-sided; that it finds the same multiset is a
matter of counting (`perm_iff_subset`).
-/

namespace Scribe.Machine

open Scribe.Core

/-! ## Meanings -/

/-- What a value is made of: an atom, an instance at an address, or a container. -/
inductive Shape (α : Type) where
  | atom (value : Value)
  | object (address : Address)
  | list (items : List α)
  | set (elements : Multiset α)
  | map (entries : Multiset (α × α))
  deriving DecidableEq

/-- What values mean up to a depth. -/
def Meaning : Nat → Type
  | 0 => Unit
  | depth + 1 => Shape (Meaning depth)

instance Meaning.decEq : (depth : Nat) → DecidableEq (Meaning depth)
  | 0 => inferInstanceAs (DecidableEq Unit)
  | depth + 1 =>
    have := Meaning.decEq depth
    inferInstanceAs (DecidableEq (Shape (Meaning depth)))

/-- What a value means in some storage, up to a depth. -/
def Heap.meaning (h : Heap) : (depth : Nat) → Value → Meaning depth
  | 0, _ => ()
  | depth + 1, v =>
    match v with
    | .list a => Shape.list ((h.list a).toList.map (h.meaning depth))
    | .set a => Shape.set ((h.set a).toList.map (h.meaning depth))
    | .map a => Shape.map ((h.map a).toList.map (Prod.map (h.meaning depth) (h.meaning depth)))
    | .object _ a => Shape.object a
    | v => Shape.atom v

/-- Whether two values mean the same up to a depth. -/
def Heap.alike (h : Heap) (depth : Nat) (l r : Value) : Bool :=
  decide (h.meaning depth l = h.meaning depth r)

/-- A value that is nested less than `depth` deep, whose instances are compared by identity and
whose sets and maps hold no two elements or keys that mean the same. -/
def Heap.Comparable (p : Program) (h : Heap) : Nat → Value → Prop
  | 0, _ => False
  | depth + 1, v =>
    match v with
    | .list a => ∀ u ∈ (h.list a).toList, h.Comparable p depth u
    | .set a => (∀ u ∈ (h.set a).toList, h.Comparable p depth u) ∧
        ((h.set a).toList.map (h.meaning depth)).Nodup
    | .map a =>
        (∀ e ∈ (h.map a).toList, h.Comparable p depth e.1 ∧ h.Comparable p depth e.2) ∧
        ((h.map a).toList.map fun e => h.meaning depth e.1).Nodup
    | .object model _ => ∃ m, p.getModel? model = some m ∧ m.equality = none
    | _ => True

section Meanings

variable {h : Heap} {n : Nat} {a b : Address}

theorem alike_self (n : Nat) (v : Value) : h.alike n v v = true :=
  decide_eq_true rfl

/-- Atoms of one kind mean the same if they are the same. -/
theorem beq_eq_alike {α : Type} [BEq α] [LawfulBEq α] {atom : α → Value} {x y : α}
    (hinj : atom x = atom y → x = y) (hatom : ∀ x, h.meaning (n + 1) (atom x) = Shape.atom (atom x)) :
    (x == y) = h.alike (n + 1) (atom x) (atom y) := by
  rw [Bool.eq_iff_iff, beq_iff_eq, Heap.alike, decide_eq_true_iff, hatom, hatom]
  exact ⟨fun hxy => by rw [hxy], fun heq => hinj (Shape.atom.inj heq)⟩

/-- Instances mean the same if they are the same one. -/
theorem beq_eq_alike_object {model model' : ModelId} (a b : Address) :
    (a == b) = h.alike (n + 1) (.object model a) (.object model' b) := by
  rw [Bool.eq_iff_iff, beq_iff_eq, Heap.alike, decide_eq_true_iff]
  exact ⟨congrArg Shape.object, Shape.object.inj⟩

theorem meaning_list_eq_iff : h.meaning (n + 1) (.list a) = h.meaning (n + 1) (.list b) ↔
    (h.list a).toList.map (h.meaning n) = (h.list b).toList.map (h.meaning n) :=
  Eq.to_iff (Shape.list.injEq _ _)

theorem meaning_set_eq_iff : h.meaning (n + 1) (.set a) = h.meaning (n + 1) (.set b) ↔
    ((h.set a).toList.map (h.meaning n) : Multiset (Meaning n)) =
      (h.set b).toList.map (h.meaning n) :=
  Eq.to_iff (Shape.set.injEq _ _)

theorem meaning_map_eq_iff : h.meaning (n + 1) (.map a) = h.meaning (n + 1) (.map b) ↔
    ((h.map a).toList.map (Prod.map (h.meaning n) (h.meaning n)) :
        Multiset (Meaning n × Meaning n)) =
      (h.map b).toList.map (Prod.map (h.meaning n) (h.meaning n)) :=
  Eq.to_iff (Shape.map.injEq _ _)

end Meanings

/-! ## Containers that mean the same

What the searches answer, if two parts are compared by what they mean. -/

section Containers

variable {α β : Type} {f : α → β}

theorem perm_iff_subset {as bs : List β} (hnodup : as.Nodup) (hlength : as.length = bs.length) :
    as.Perm bs ↔ as ⊆ bs :=
  ⟨List.Perm.subset, fun hsub =>
    (List.subperm_of_subset hnodup hsub).perm_of_length_le (Nat.le_of_eq hlength.symm)⟩

variable [DecidableEq β]

theorem zip_all_iff {as bs : List α} (hlength : as.length = bs.length) :
    ((as.zip bs).all fun x => decide (f x.1 = f x.2)) = true ↔ as.map f = bs.map f := by
  induction as generalizing bs with
  | nil =>
    cases bs with
    | nil => simp
    | cons b bs => cases hlength
  | cons a as ih =>
    cases bs with
    | nil => cases hlength
    | cons b bs => simpa using fun _ => ih (Nat.succ.inj hlength)

theorem all_any_iff {as bs : List α} (hlength : as.length = bs.length)
    (hnodup : (as.map f).Nodup) :
    (as.all fun a => bs.any fun b => decide (f b = f a)) = true ↔
      (as.map f : Multiset β) = bs.map f := by
  rw [Multiset.coe_eq_coe, perm_iff_subset hnodup (by simpa using hlength)]
  simp [List.subset_def]

/-- The entry that is found under a key is the only one. -/
theorem find_any_iff {es : List (α × α)} (hnodup : (es.map fun e => f e.1).Nodup) (x : α × α) :
    (es.find? fun e => decide (f e.1 = f x.1)).any (fun e => decide (f x.2 = f e.2)) = true ↔
      Prod.map f f x ∈ es.map (Prod.map f f) := by
  rw [List.mem_map]
  cases hfind : es.find? fun e => decide (f e.1 = f x.1) with
  | none =>
    have hnone : ∀ e ∈ es, f e.1 ≠ f x.1 := by simpa using hfind
    refine ⟨by rintro ⟨⟩, ?_⟩
    rintro ⟨e, he, heq⟩
    exact (hnone e he (Prod.ext_iff.mp heq).1).elim
  | some e =>
    have he : e ∈ es := List.mem_of_find?_eq_some hfind
    have hkey : f e.1 = f x.1 := by simpa using List.find?_some hfind
    rw [Option.any_some, decide_eq_true_iff]
    constructor
    · exact fun hvalue => ⟨e, he, Prod.ext hkey hvalue.symm⟩
    · rintro ⟨e', he', heq⟩
      obtain ⟨hkey', hvalue⟩ := Prod.ext_iff.mp heq
      obtain rfl := List.inj_on_of_nodup_map hnodup he he' (hkey.trans hkey'.symm)
      exact hvalue.symm

theorem all_find_iff {as bs : List (α × α)} (hlength : as.length = bs.length)
    (has : (as.map fun e => f e.1).Nodup) (hbs : (bs.map fun e => f e.1).Nodup) :
    (as.all fun a => (bs.find? fun b => decide (f b.1 = f a.1)).any fun b =>
      decide (f a.2 = f b.2)) = true ↔
        (as.map (Prod.map f f) : Multiset (β × β)) = bs.map (Prod.map f f) := by
  have hnodup : (as.map (Prod.map f f)).Nodup := by
    refine .of_map Prod.fst ?_
    simpa [Function.comp_def] using has
  rw [Multiset.coe_eq_coe, perm_iff_subset hnodup (by simpa using hlength)]
  simp only [List.all_eq_true, find_any_iff hbs, List.subset_def, List.forall_mem_map]

end Containers

/-! ## Comparisons -/

/-- Equality of the program, where `known` decides for which containers it is clear beforehand that
they are equal. -/
def comparison (known : Address → Address → Bool) (env : Env) : Nat → Value → Value → Exec Bool
  | 0, _, _ => throw .exhausted
  | depth + 1, .list a, .list b =>
    if known a b then return true
    else do
      let l ← Exec.look (·.list a)
      let r ← Exec.look (·.list b)
      if l.size = r.size then itemsEqual (comparison known env depth) l.toList r.toList
      else return false
  | depth + 1, .set a, .set b =>
    if known a b then return true
    else do
      let l ← Exec.look (·.set a)
      let r ← Exec.look (·.set b)
      if l.size = r.size then elementsFound (comparison known env depth) r.toList l.toList
      else return false
  | depth + 1, .map a, .map b =>
    if known a b then return true
    else do
      let l ← Exec.look (·.map a)
      let r ← Exec.look (·.map b)
      if l.size = r.size then entriesFound (comparison known env depth) r.toList l.toList
      else return false
  | _ + 1, left, right => valuesEqual env 1 left right

/-- Equality takes containers for equal that are the same one. -/
theorem valuesEqual_eq_comparison (env : Env) :
    valuesEqual env = comparison (fun a b => decide (a = b)) env := by
  funext depth
  induction depth with
  | zero => rfl
  | succ depth ih =>
    funext left right
    cases left with
    | list a =>
      cases right with
      | list b => simp only [valuesEqual, comparison, ih, decide_eq_true_eq]
      | _ => rfl
    | set a =>
      cases right with
      | set b => simp only [valuesEqual, comparison, ih, decide_eq_true_eq]
      | _ => rfl
    | map a =>
      cases right with
      | map b => simp only [valuesEqual, comparison, ih, decide_eq_true_eq]
      | _ => rfl
    | _ => cases right <;> rfl

section Comparisons

variable {p : Program} {h : Heap} {env : Env} (henv : env.program = p)
  {known : Address → Address → Bool} (hknown : ∀ a b, known a b = true → a = b)

include henv hknown

/-- A comparison answers whether two values mean the same, whichever containers it takes for equal
because they are the same one. -/
theorem comparison_reads {n depth : Nat} {l r : Value} (hl : h.Comparable p n l)
    (hr : h.Comparable p n r) (hdepth : n ≤ depth) :
    Reads h (comparison known env depth l r) (h.alike n l r) := by
  induction n generalizing depth l r with
  | zero => exact hl.elim
  | succ n ih =>
    obtain ⟨depth, rfl⟩ : ∃ k, depth = k + 1 := ⟨depth - 1, by omega⟩
    have hparts {u v : Value} (hu : h.Comparable p n u) (hv : h.Comparable p n v) :=
      ih hu hv (Nat.le_of_succ_le_succ hdepth)
    unfold comparison
    cases l with
    | list a =>
      cases r with
      | list b =>
        refine .contents (fun hab => by rw [hknown a b hab]) (fun heq => ?_) fun hsize => ?_
        · simpa using congrArg List.length (meaning_list_eq_iff.mp heq)
        · refine (Reads.itemsEqual fun u hu v hv => hparts (hl u hu) (hr v hv)).congr ?_
          unfold Heap.alike
          rw [Bool.eq_iff_iff, zip_all_iff hsize, decide_eq_true_iff, meaning_list_eq_iff]
      | _ => exact .pure false
    | set a =>
      cases r with
      | set b =>
        refine .contents (fun hab => by rw [hknown a b hab]) (fun heq => ?_) fun hsize => ?_
        · simpa using congrArg Multiset.card (meaning_set_eq_iff.mp heq)
        · refine (Reads.elementsFound fun u hu v hv => hparts (hr.1 u hu) (hl.1 v hv)).congr ?_
          unfold Heap.alike
          rw [Bool.eq_iff_iff, all_any_iff hsize hl.2, decide_eq_true_iff, meaning_set_eq_iff]
      | _ => exact .pure false
    | map a =>
      cases r with
      | map b =>
        refine .contents (fun hab => by rw [hknown a b hab]) (fun heq => ?_) fun hsize => ?_
        · simpa using congrArg Multiset.card (meaning_map_eq_iff.mp heq)
        · refine (Reads.entriesFound (fun d hd e he => hparts (hr.1 d hd).1 (hl.1 e he).1)
            fun d hd e he => hparts (hl.1 e he).2 (hr.1 d hd).2).congr ?_
          unfold Heap.alike
          rw [Bool.eq_iff_iff, all_find_iff hsize hl.2 hr.2, decide_eq_true_iff,
            meaning_map_eq_iff]
      | _ => exact .pure false
    | object model a =>
      cases r with
      | object model' b =>
        obtain ⟨m, hm, hequality⟩ := hl
        refine Reads.congr (fun s _ => ?_) (beq_eq_alike_object a b)
        simp only [valuesEqual]
        rw [henv, hm, Exec.ofOption, pure_bind, hequality]
        rfl
      | _ => exact .pure false
    | void =>
      cases r with
      | void => exact (Reads.pure true).congr (alike_self _ _).symm
      | _ => exact .pure false
    | null =>
      cases r with
      | null => exact (Reads.pure true).congr (alike_self _ _).symm
      | _ => exact .pure false
    | bool x =>
      cases r with
      | bool y => exact (Reads.pure (x == y)).congr (beq_eq_alike Value.bool.inj fun _ => rfl)
      | _ => exact .pure false
    | int x =>
      cases r with
      | int y => exact (Reads.pure (x == y)).congr (beq_eq_alike Value.int.inj fun _ => rfl)
      | _ => exact .pure false
    | rune x =>
      cases r with
      | rune y => exact (Reads.pure (x == y)).congr (beq_eq_alike Value.rune.inj fun _ => rfl)
      | _ => exact .pure false
    | string x =>
      cases r with
      | string y => exact (Reads.pure (x == y)).congr (beq_eq_alike Value.string.inj fun _ => rfl)
      | _ => exact .pure false

end Comparisons

end Scribe.Machine
