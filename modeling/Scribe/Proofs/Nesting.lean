import Scribe.Proofs.HeapTyping
import Scribe.Proofs.Searches

/-!
# How deep comparisons and hashes go

Storage may be cyclic, but a cycle of typed values always goes through an instance, and without
overrides instances are compared and hashed without a look at their fields. Everything else is
nested as deep as its type (`Heap.Shows.nests`). So if no model has an equality or a hash of its
own, comparisons and hashes of values come to their end within a depth that their types give
(`valuesEqual_decides`, `hashValue_decides`): they give an answer, which does not depend on how much
deeper they might have gone, and change nothing.
-/

namespace Scribe.Core

/-- How deep containers are nested in a type. -/
def Ty.nesting : Ty → Nat
  | .primitive _ | .model _ => 0
  | .list item | .set item => item.nesting + 1
  | .map key value => max key.nesting value.nesting + 1

/-- No model has an equality or a hash of its own. -/
def Program.NoOverrides (p : Program) : Prop :=
  ∀ id m, p.getModel? id = some m → m.equality = none ∧ m.hashing = none

end Scribe.Core

namespace Scribe.Machine

open Scribe.Core

/-! ## Depth -/

/-- An environment of a program, and room for containers that are nested `n` deep. -/
structure Room (p : Program) (n : Nat) where
  env : Env
  depth : Nat
  program : env.program = p
  enough : n ≤ depth

/-- The room that is left inside a container. -/
def Room.inside {p : Program} {n : Nat} (i : Room p (n + 1)) : Room p n where
  env := i.env
  depth := i.depth - 1
  program := i.program
  enough := Nat.le_sub_of_add_le i.enough

theorem Room.inside_depth {p : Program} {n : Nat} (i : Room p (n + 1)) :
    i.inside.depth + 1 = i.depth :=
  Nat.sub_add_cancel (Nat.le_trans (Nat.le_add_left 1 n) i.enough)

/-- Containers in a value are nested less than `n` deep. The fields of an instance do not count. -/
def Heap.Nests (p : Program) (h : Heap) : Nat → Value → Prop
  | 0, _ => False
  | n + 1, v =>
    match v with
    | .object model _ => ∃ m, p.getModel? model = some m
    | .map a => ∀ e ∈ (h.map a).toList, h.Nests p n e.1 ∧ h.Nests p n e.2
    | .set a => ∀ u ∈ (h.set a).toList, h.Nests p n u
    | .list a => ∀ u ∈ (h.list a).toList, h.Nests p n u
    | _ => True

/-- The type of a value, up to null, as its contents show it. The fields of an instance do not
count. -/
inductive Heap.Shows (p : Program) (h : Heap) : Value → Ty → Prop where
  | void : Shows p h .void .void
  | null {t : Ty} (ht : t ≠ .void) : Shows p h .null t
  | bool (b : Bool) : Shows p h (.bool b) .bool
  | int (n : Int64) : Shows p h (.int n) .int
  | rune (c : Char) : Shows p h (.rune c) .rune
  | string (x : String) : Shows p h (.string x) .string
  | list {a : Address} {item : Ty} (hitems : ∀ v ∈ (h.list a).toList, Shows p h v item) :
      Shows p h (.list a) (.list item)
  | set {a : Address} {item : Ty} (hitems : ∀ v ∈ (h.set a).toList, Shows p h v item) :
      Shows p h (.set a) (.set item)
  | map {a : Address} {key value : Ty} (hkeys : ∀ e ∈ (h.map a).toList, Shows p h e.1 key)
      (hvalues : ∀ e ∈ (h.map a).toList, Shows p h e.2 value) :
      Shows p h (.map a) (.map key value)
  | object {a : Address} {id : ModelId} {m : Model} (hm : p.getModel? id = some m) :
      Shows p h (.object id a) (.model id)

section Depth

variable {p : Program} {τ : Typing} {h : Heap}

/-- Values of a type that storage is known to have show it. -/
theorem HasType.shows {v : Value} {t : Ty} (hv : HasType τ v t) (hheap : HeapTyped p τ h) :
    h.Shows p v t := by
  induction t generalizing v with
  | primitive _ =>
    cases hv with
    | void => exact .void
    | null ht => exact .null ht
    | bool b => exact .bool b
    | int n => exact .int n
    | rune c => exact .rune c
    | string x => exact .string x
  | list item ih =>
    cases hv with
    | null ht => exact .null ht
    | list ha => exact .list fun v hv => ih ((hheap.items_list ha).mem_toList v hv)
  | set item ih =>
    cases hv with
    | null ht => exact .null ht
    | set ha => exact .set fun v hv => ih ((hheap.items_set ha).mem_toList v hv)
  | map key value ihk ihv =>
    cases hv with
    | null ht => exact .null ht
    | map ha =>
      have hentries := (hheap.entries_map ha).mem_toList
      exact .map (fun e he => ihk (hentries e he).1) fun e he => ihv (hentries e he).2
  | model id =>
    cases hv with
    | null ht => exact .null ht
    | object ha =>
      obtain ⟨_, _, m, hm, _⟩ := hheap.objects _ _ ha
      exact .object hm

/-- Values are nested as deep as their types. -/
theorem Heap.Shows.nests {n : Nat} {v : Value} {t : Ty} (hv : h.Shows p v t) (ht : t.nesting < n) :
    h.Nests p n v := by
  induction hv generalizing n with
  | list _ ih | set _ ih =>
    obtain ⟨n, rfl⟩ := Nat.exists_eq_add_one_of_ne_zero (Nat.ne_zero_of_lt ht)
    exact fun v hv => ih v hv (Nat.lt_of_succ_lt_succ ht)
  | map _ _ ihk ihv =>
    obtain ⟨n, rfl⟩ := Nat.exists_eq_add_one_of_ne_zero (Nat.ne_zero_of_lt ht)
    obtain ⟨hk, hv⟩ := Nat.max_lt.mp (Nat.lt_of_succ_lt_succ ht)
    exact fun e he => ⟨ihk e he hk, ihv e he hv⟩
  | object hm =>
    obtain ⟨n, rfl⟩ := Nat.exists_eq_add_one_of_ne_zero (Nat.ne_zero_of_lt ht)
    exact ⟨_, hm⟩
  | _ =>
    obtain ⟨n, rfl⟩ := Nat.exists_eq_add_one_of_ne_zero (Nat.ne_zero_of_lt ht)
    exact trivial

variable (hp : p.NoOverrides)

include hp

/-- Equality comes to an answer if it may go as deep as the values are nested. Sets and maps search
the parts of one side on the other, so both sides bound the depth. -/
theorem valuesEqual_decides {n : Nat} {l r : Value} (hl : h.Nests p n l) (hr : h.Nests p n r) :
    Decides h fun i : Room p n => valuesEqual i.env i.depth l r := by
  induction n generalizing l r with
  | zero => exact hl.elim
  | succ n ih =>
    -- one level of depth is spent on the container itself
    suffices hstep : Decides h fun i : Room p n => valuesEqual i.env (i.depth + 1) l r from
      hstep.reindex Room.inside fun i => by rw [i.inside_depth]; rfl
    cases l with
    | list a =>
      cases r with
      | list b => exact .contents (.itemsEqual fun u hu v hv => ih (hl u hu) (hr v hv))
      | _ => exact ⟨_, fun _ _ _ => rfl⟩
    | set a =>
      cases r with
      | set b => exact .contents (.elementsFound fun u hu v hv => ih (hr u hu) (hl v hv))
      | _ => exact ⟨_, fun _ _ _ => rfl⟩
    | map a =>
      cases r with
      | map b =>
        exact .contents (.entriesFound (fun d hd e he => ih (hr d hd).1 (hl e he).1)
          fun d hd e he => ih (hl e he).2 (hr d hd).2)
      | _ => exact ⟨_, fun _ _ _ => rfl⟩
    | object model a =>
      cases r with
      | object model' b =>
        -- instances are compared by their addresses
        obtain ⟨m, hm⟩ := hl
        refine ⟨a == b, fun i s _ => ?_⟩
        unfold valuesEqual
        dsimp only
        rw [i.program, hm, Exec.ofOption, pure_bind, (hp model m hm).1]
        rfl
      | _ => exact ⟨_, fun _ _ _ => rfl⟩
    | _ => cases r <;> exact ⟨_, fun _ _ _ => rfl⟩

/-- A hash comes to an answer if it may go as deep as the value is nested. -/
theorem hashValue_decides {n : Nat} {v : Value} (hv : h.Nests p n v) :
    Decides h fun i : Room p n => hashValue i.env i.depth v := by
  induction n generalizing v with
  | zero => exact hv.elim
  | succ n ih =>
    suffices hstep : Decides h fun i : Room p n => hashValue i.env (i.depth + 1) v from
      hstep.reindex Room.inside fun i => by rw [i.inside_depth]; rfl
    cases v with
    | list a => exact .look_bind (.bind (.hashAll fun v hmem => ih (hv v hmem)) fun xs => .pure _)
    | set a => exact .look_bind (.bind (.hashAll fun v hmem => ih (hv v hmem)) fun xs => .pure _)
    | map a =>
      refine .look_bind (.bind (.hashEntries fun e he => ?_) fun xs => .pure _)
      exact ⟨ih (hv e he).1, ih (hv e he).2⟩
    | object model a =>
      -- all instances of a model have the same hash
      obtain ⟨m, hm⟩ := hv
      refine ⟨Int64.ofNat model.index, fun i s _ => ?_⟩
      unfold hashValue
      dsimp only
      rw [i.program, hm, Exec.ofOption, pure_bind, (hp model m hm).2]
      rfl
    | _ => exact ⟨_, fun _ _ _ => rfl⟩

end Depth

end Scribe.Machine
