import Scribe.Proofs.Closure

/-!
# Storage behind other storage

What an expression of literals, operators and earlier constants comes to does not depend on what
there is in storage already. Two machines that evaluate it, one with empty storage and one with
more, do the same, except that the addresses of the second are those of the first moved behind what
it had (`Moves`, `eval_yields`).

No instance turns up on the way, so no equality and no hash of a model is called. Therefore it does
not matter either how the machines make calls.
-/

namespace Scribe.Core

/-- A node of a constant form: a literal, a container, an operator, or a constant before the one
with index `i`. -/
def Expr.Frozen (i : Nat) : Expr → Prop
  | .bool _ | .int _ | .rune _ | .string _ | .null _ | .list _ _ | .set _ _ | .map _ _ _
  | .emptyList _ | .emptySet _ | .emptyMap _ _ | .unary _ _ _ | .binary _ _ _ _ => True
  | .var (.constant id) _ => id.index < i
  | .var _ _ | .call _ _ _ _ | .lookup _ _ _ _ | .property _ _ _ | .contains _ _ | .new _
  | .length _ _ | .self _ | .pop _ _ => False

/-- The values of constants are made of literals, operators and the constants before them. -/
def Program.ConstantsFrozen (p : Program) : Prop :=
  ∀ {id c}, p.getConstant? id = some c → c.value.All (Expr.Frozen id.index)

end Scribe.Core

namespace Scribe.Machine

open Scribe.Core

/-! ## Values and storage -/

namespace Value

/-- A value whose storage is moved behind that of `base`. -/
def behind (base : Heap) : Value → Value
  | .list a => .list (base.lists.size + a)
  | .set a => .set (base.sets.size + a)
  | .map a => .map (base.maps.size + a)
  | .object model a => .object model (base.objects.size + a)
  | .void => .void
  | .null => .null
  | .bool b => .bool b
  | .int n => .int n
  | .rune c => .rune c
  | .string s => .string s

/-- A value that is no instance. -/
def Inert : Value → Prop
  | .object _ _ => False
  | _ => True

/-- A value without storage. -/
def Scalar : Value → Prop
  | .bool _ | .int _ | .rune _ | .string _ => True
  | _ => False

theorem Scalar.behind {v : Value} (h : v.Scalar) (base : Heap) : v.behind base = v := by
  cases v with
  | bool _ | int _ | rune _ | string _ => rfl
  | _ => exact h.elim

theorem Scalar.inert {v : Value} (h : v.Scalar) : v.Inert := by
  cases v with
  | object _ _ => exact h
  | _ => trivial

end Value

/-- The entry of a map, moved behind `base`. -/
def entryBehind (base : Heap) (e : Value × Value) : Value × Value :=
  (e.1.behind base, e.2.behind base)

namespace Heap

/-- The storage of `h`, moved behind that of `base`. -/
def append (base h : Heap) : Heap where
  lists := base.lists ++ h.lists.map (·.map (·.behind base))
  sets := base.sets ++ h.sets.map (·.map (·.behind base))
  maps := base.maps ++ h.maps.map (·.map (entryBehind base))
  objects := base.objects ++
    h.objects.map fun o => { o with fields := o.fields.map (·.behind base) }

theorem append_empty (base : Heap) : base.append {} = base := by
  unfold append
  simp only [Array.map_empty, Array.append_empty]

section Cells

variable {α : Type}

theorem getD_append (cells cells' : Array (Array α)) (f : α → α) (a : Nat) :
    (cells ++ cells'.map (·.map f))[cells.size + a]?.getD #[] = (cells'[a]?.getD #[]).map f := by
  rw [Array.getElem?_append_right (Nat.le_add_right _ _), Nat.add_sub_cancel_left,
    Array.getElem?_map]
  cases cells'[a]? with
  | none => exact Array.map_empty.symm
  | some items => rfl

theorem modify_append (cells cells' : Array (Array α)) {f : α → α} {g g' : Array α → Array α}
    (h : ∀ items, g (items.map f) = (g' items).map f) (a : Nat) :
    (cells ++ cells'.map (·.map f)).modify (cells.size + a) g =
      cells ++ (cells'.modify a g').map (·.map f) := by
  refine Array.ext_getElem? fun i => ?_
  rw [Array.getElem?_modify, Array.getElem?_append, Array.getElem?_append]
  by_cases hi : i < cells.size
  · rw [if_pos hi, if_pos hi, if_neg (by omega)]
  · rw [if_neg hi, if_neg hi, Array.getElem?_map, Array.getElem?_map, Array.getElem?_modify]
    by_cases ha : a = i - cells.size
    · rw [if_pos (by omega), if_pos ha, Option.map_map, Option.map_map]
      refine congrArg (Option.map · _) ?_
      exact funext h
    · rw [if_neg (by omega), if_neg ha]

theorem push_append (cells cells' : Array (Array α)) (f : α → α) (items : Array α) :
    (cells ++ cells'.map (·.map f)).push (items.map f) =
      cells ++ (cells'.push items).map (·.map f) := by
  rw [Array.map_push, Array.append_push]

/-- `P` holds of all that the cells hold. -/
def AllCells (P : α → Prop) (cells : Array (Array α)) : Prop :=
  ∀ a : Nat, ∀ v ∈ cells[a]?.getD #[], P v

variable {P : α → Prop} {cells : Array (Array α)}

theorem AllCells.push (h : AllCells P cells) {items : Array α} (hitems : ∀ v ∈ items, P v) :
    AllCells P (cells.push items) := by
  intro a v hv
  rw [Array.getElem?_push] at hv
  split at hv
  · exact hitems v hv
  · exact h a v hv

theorem AllCells.modify (h : AllCells P cells) {f : Array α → Array α}
    (hf : ∀ items, (∀ v ∈ items, P v) → ∀ v ∈ f items, P v) (a : Nat) :
    AllCells P (cells.modify a f) := by
  intro b v hv
  rw [Array.getElem?_modify] at hv
  split at hv
  · have hcell := h b
    cases hc : cells[b]? with
    | none =>
      rw [hc] at hv
      exact absurd hv (Array.not_mem_empty v)
    | some items =>
      rw [hc] at hv hcell
      exact hf items hcell v hv
  · exact h b v hv

end Cells

/-- Storage that refers to no instance. -/
structure Inert (h : Heap) : Prop where
  lists : AllCells Value.Inert h.lists
  sets : AllCells Value.Inert h.sets
  maps : AllCells (fun e => e.1.Inert ∧ e.2.Inert) h.maps

theorem inert_empty : Inert {} :=
  ⟨fun _ v hv => absurd hv (Array.not_mem_empty v), fun _ v hv => absurd hv (Array.not_mem_empty v),
    fun _ e he => absurd he (Array.not_mem_empty e)⟩

end Heap

/-! ## Machines side by side -/

/-- Two machines on their way through the constants, with values for those before index `i`: the
first one has what the second one has, behind the storage `base`. -/
structure Linked (base : Heap) (i : Nat) (s t : State) : Prop where
  heap : s.heap = base.append t.heap
  inert : t.heap.Inert
  constants : ∀ id : ConstantId, id.index < i → ∃ v, t.constants.lookup id = some v ∧ v.Inert ∧
    s.constants.lookup id = some (v.behind base)

/-- The end of a computation in a state whose storage is behind `base`. -/
def carry {α : Type} (base : Heap) (s : State) (f : α → α) :
    EStateM.Result Stop State α → EStateM.Result Stop State α
  | .ok a t => .ok (f a) { s with heap := base.append t.heap }
  | .error stop t => .error stop { s with heap := base.append t.heap }

/-- The first computation does behind `base` what the second one does in its own storage, and gives
`f a` where that gives `a`. The second one leaves the constants as they are. -/
def Moves (base : Heap) (i : Nat) {α : Type} (f : α → α) (Q : α → Prop) (x y : Exec α) : Prop :=
  ∀ s t, Linked base i s t → x s = carry base s f (y t) ∧
    ∀ a t', y t = .ok a t' → Q a ∧ t'.heap.Inert ∧ t'.constants = t.constants

/-- The first computation does behind `base` what the second one does in its own storage, and gives
the same. -/
abbrev Agrees (base : Heap) (i : Nat) {α : Type} (x y : Exec α) : Prop :=
  Moves base i id (fun _ => True) x y

/-- The first computation gives a value behind `base` where the second one gives that value. -/
abbrev Yields (base : Heap) (i : Nat) (x y : Exec Value) : Prop :=
  Moves base i (·.behind base) Value.Inert x y

namespace Moves

variable {base : Heap} {i : Nat} {α β : Type} {f : α → α} {g : β → β} {Q : α → Prop} {Q' : β → Prop}

theorem pure {a b : α} (h : b = f a) (ha : Q a) : Moves base i f Q (pure b) (pure a) := by
  intro s t hst
  refine ⟨?_, fun a' t' heq => ?_⟩
  · show EStateM.Result.ok b s = .ok (f a) { s with heap := base.append t.heap }
    rw [← hst.heap, h]
  · cases heq
    exact ⟨ha, hst.inert, rfl⟩

theorem throw (stop : Stop) : Moves base i f Q (throw stop) (throw stop) := by
  intro s t hst
  refine ⟨?_, by rintro _ _ ⟨⟩⟩
  show EStateM.Result.error stop s = .error stop { s with heap := base.append t.heap }
  rw [← hst.heap]

theorem bind {x y : Exec α} {k l : α → Exec β} (hxy : Moves base i f Q x y)
    (hkl : ∀ a, Q a → Moves base i g Q' (k (f a)) (l a)) :
    Moves base i g Q' (x >>= k) (y >>= l) := by
  intro s t hst
  obtain ⟨hx, hy⟩ := hxy s t hst
  show EStateM.bind x k s = carry base s g (EStateM.bind y l t) ∧
    ∀ b t', EStateM.bind y l t = .ok b t' → _
  unfold EStateM.bind
  rw [hx]
  cases hrun : y t with
  | error stop t1 => exact ⟨rfl, by rintro _ _ ⟨⟩⟩
  | ok a t1 =>
    obtain ⟨ha, hinert, hconstants⟩ := hy a t1 hrun
    have hst1 : Linked base i { s with heap := base.append t1.heap } t1 := by
      refine ⟨rfl, hinert, ?_⟩
      rw [hconstants]
      exact hst.constants
    obtain ⟨hk, hl⟩ := hkl a ha _ t1 hst1
    refine ⟨?_, fun b t' heq => ?_⟩
    · show k (f a) { s with heap := base.append t1.heap } = carry base s g (l a t1)
      rw [hk]
      cases l a t1 with
      | ok b t2 => rfl
      | error stop t2 => rfl
    · obtain ⟨hb, hinert', hconstants'⟩ := hl b t' heq
      exact ⟨hb, hinert', hconstants'.trans hconstants⟩

theorem look {u v : Heap → α} (h : ∀ h : Heap, h.Inert → u (base.append h) = f (v h) ∧ Q (v h)) :
    Moves base i f Q (Exec.look u) (Exec.look v) := by
  intro s t hst
  obtain ⟨hu, hv⟩ := h t.heap hst.inert
  refine ⟨?_, fun a t' heq => ?_⟩
  · show EStateM.Result.ok (u s.heap) s = .ok (f (v t.heap)) { s with heap := base.append t.heap }
    rw [← hu, ← hst.heap]
  · cases heq
    exact ⟨hv, hst.inert, rfl⟩

theorem change {u v : Heap → Heap}
    (h : ∀ h : Heap, h.Inert → u (base.append h) = base.append (v h) ∧ (v h).Inert) :
    Agrees base i (Exec.change u) (Exec.change v) := by
  intro s t hst
  obtain ⟨hu, hv⟩ := h t.heap hst.inert
  refine ⟨?_, fun a t' heq => ?_⟩
  · show EStateM.Result.ok () { s with heap := u s.heap } =
      .ok () { s with heap := base.append (v t.heap) }
    rw [hst.heap, hu]
  · cases heq
    exact ⟨trivial, hv, rfl⟩

theorem alloc {u v : Heap → Address × Heap} {f : Address → Address}
    (h : ∀ h : Heap, h.Inert → u (base.append h) = (f (v h).1, base.append (v h).2) ∧
      (v h).2.Inert) : Moves base i f (fun _ => True) (Exec.alloc u) (Exec.alloc v) := by
  intro s t hst
  obtain ⟨hu, hv⟩ := h t.heap hst.inert
  refine ⟨?_, fun a t' heq => ?_⟩
  · show EStateM.Result.ok (u s.heap).1 { s with heap := (u s.heap).2 } =
      .ok (f (v t.heap).1) { s with heap := base.append (v t.heap).2 }
    rw [hst.heap, hu]
  · cases heq
    exact ⟨trivial, hv, rfl⟩

theorem fault (cause : Fault) : Moves base i f Q (Exec.fault cause) (Exec.fault cause) :=
  throw _

theorem ofExcept (r : Except Fault α) : Agrees base i (Exec.ofExcept r) (Exec.ofExcept r) := by
  cases r with
  | ok a => exact .pure rfl trivial
  | error cause => exact .fault cause

/-- What operators give has no storage. -/
theorem ofScalar {r : Except Fault Value} (h : ∀ v, r = .ok v → v.Scalar) :
    Yields base i (Exec.ofExcept r) (Exec.ofExcept r) := by
  cases r with
  | ok v =>
    have hv := h v rfl
    exact .pure (hv.behind base).symm hv.inert
  | error cause => exact .fault cause

end Moves

/-! ## Storage of containers -/

section Containers

variable {base : Heap} {i : Nat}

theorem look_list (a : Address) :
    Moves base i (·.map (·.behind base)) (∀ v ∈ ·, v.Inert)
      (Exec.look (·.list (base.lists.size + a))) (Exec.look (·.list a)) :=
  .look fun h hh => ⟨Heap.getD_append base.lists h.lists _ a, hh.lists a⟩

theorem look_set (a : Address) :
    Moves base i (·.map (·.behind base)) (∀ v ∈ ·, v.Inert)
      (Exec.look (·.set (base.sets.size + a))) (Exec.look (·.set a)) :=
  .look fun h hh => ⟨Heap.getD_append base.sets h.sets _ a, hh.sets a⟩

theorem look_map (a : Address) :
    Moves base i (·.map (entryBehind base)) (∀ e ∈ ·, e.1.Inert ∧ e.2.Inert)
      (Exec.look (·.map (base.maps.size + a))) (Exec.look (·.map a)) :=
  .look fun h hh => ⟨Heap.getD_append base.maps h.maps _ a, hh.maps a⟩

theorem newList_moves {items : Array Value} (hitems : ∀ v ∈ items, v.Inert) :
    Moves base i (base.lists.size + ·) (fun _ => True)
      (Exec.alloc (·.newList (items.map (·.behind base)))) (Exec.alloc (·.newList items)) := by
  refine .alloc fun h hh => ⟨?_, hh.lists.push hitems, hh.sets, hh.maps⟩
  unfold Heap.newList Heap.append
  dsimp only
  rw [Heap.push_append, Array.size_append, Array.size_map]

theorem newEmptyList_moves :
    Moves base i (base.lists.size + ·) (fun _ => True)
      (Exec.alloc (·.newList #[])) (Exec.alloc (·.newList #[])) := by
  have hnew : Moves base i (base.lists.size + ·) (fun _ => True)
      (Exec.alloc (·.newList ((#[] : Array Value).map (·.behind base))))
      (Exec.alloc (·.newList #[])) :=
    newList_moves fun v hv => absurd hv (Array.not_mem_empty v)
  rw [Array.map_empty] at hnew
  exact hnew

theorem newSet_moves :
    Moves base i (base.sets.size + ·) (fun _ => True)
      (Exec.alloc (·.newSet #[])) (Exec.alloc (·.newSet #[])) := by
  refine .alloc fun h hh => ⟨?_, hh.lists, hh.sets.push fun v hv => ?_, hh.maps⟩
  · unfold Heap.newSet Heap.append
    dsimp only
    rw [← Heap.push_append, Array.map_empty, Array.size_append, Array.size_map]
  · exact absurd hv (Array.not_mem_empty v)

theorem newMap_moves :
    Moves base i (base.maps.size + ·) (fun _ => True)
      (Exec.alloc (·.newMap #[])) (Exec.alloc (·.newMap #[])) := by
  refine .alloc fun h hh => ⟨?_, hh.lists, hh.sets, hh.maps.push fun e he => ?_⟩
  · unfold Heap.newMap Heap.append
    dsimp only
    rw [← Heap.push_append, Array.map_empty, Array.size_append, Array.size_map]
  · exact absurd he (Array.not_mem_empty e)

theorem pushElement_agrees (a : Address) {v : Value} (hv : v.Inert) :
    Agrees base i (Exec.change (·.pushElement (base.sets.size + a) (v.behind base)))
      (Exec.change (·.pushElement a v)) := by
  refine .change fun h hh => ⟨?_, hh.lists, hh.sets.modify (fun items hitems u hu => ?_) a, hh.maps⟩
  · unfold Heap.pushElement Heap.append
    dsimp only
    rw [Heap.modify_append]
    exact fun items => Array.map_push.symm
  · obtain hu | rfl := Array.mem_push.mp hu
    · exact hitems u hu
    · exact hv

theorem pushEntry_agrees (a : Address) {key v : Value} (hkey : key.Inert) (hv : v.Inert) :
    Agrees base i (Exec.change (·.pushEntry (base.maps.size + a) (key.behind base) (v.behind base)))
      (Exec.change (·.pushEntry a key v)) := by
  refine .change fun h hh => ⟨?_, hh.lists, hh.sets, hh.maps.modify (fun items hitems e he => ?_) a⟩
  · unfold Heap.pushEntry Heap.append
    dsimp only
    rw [Heap.modify_append]
    intro items
    rw [Array.map_push]
    rfl
  · obtain he | rfl := Array.mem_push.mp he
    · exact hitems e he
    · exact ⟨hkey, hv⟩

theorem setEntry_agrees (a : Address) (slot : Nat) {v : Value} (hv : v.Inert) :
    Agrees base i (Exec.change (·.setEntry (base.maps.size + a) slot (v.behind base)))
      (Exec.change (·.setEntry a slot v)) := by
  refine .change fun h hh => ⟨?_, hh.lists, hh.sets, hh.maps.modify (fun items hitems e he => ?_) a⟩
  · unfold Heap.setEntry Heap.append
    dsimp only
    rw [Heap.modify_append]
    intro items
    refine Array.ext_getElem? fun j => ?_
    rw [Array.getElem?_modify, Array.getElem?_map, Array.getElem?_map, Array.getElem?_modify]
    split
    · rw [Option.map_map, Option.map_map]
      rfl
    · rfl
  · obtain ⟨j, hj⟩ := Array.getElem?_of_mem he
    rw [Array.getElem?_modify] at hj
    split at hj
    · obtain ⟨e', he', rfl⟩ := Option.map_eq_some_iff.mp hj
      exact ⟨(hitems e' (Array.mem_of_getElem? he')).1, hv⟩
    · exact hitems e (Array.mem_of_getElem? hj)

end Containers

/-! ## Comparisons -/

section Search

variable {base : Heap} {i : Nat} {eq eq' : Value → Value → Exec Bool}
  (heq : ∀ {l r}, l.Inert → r.Inert → Agrees base i (eq (l.behind base) (r.behind base)) (eq' l r))

include heq

theorem positionFrom_agrees {value : Value} (hvalue : value.Inert) {items : List Value}
    (hitems : ∀ v ∈ items, v.Inert) (index : Nat) :
    Agrees base i (positionFrom eq (value.behind base) index (items.map (·.behind base)))
      (positionFrom eq' value index items) := by
  induction items generalizing index with
  | nil => exact .pure rfl trivial
  | cons item rest ih =>
    obtain ⟨hitem, hrest⟩ := List.forall_mem_cons.mp hitems
    refine (heq hitem hvalue).bind fun found _ => ?_
    cases found with
    | true => exact .pure rfl trivial
    | false => exact ih hrest (index + 1)

theorem findKey_agrees {entries : List (Value × Value)}
    (hentries : ∀ e ∈ entries, e.1.Inert ∧ e.2.Inert) {key : Value} (hkey : key.Inert) :
    Agrees base i (findKey eq (entries.map (entryBehind base)) (key.behind base))
      (findKey eq' entries key) := by
  have hkeys : (entries.map (entryBehind base)).map (·.1) =
      (entries.map (·.1)).map (·.behind base) := by
    rw [List.map_map, List.map_map]
    rfl
  unfold findKey position
  rw [hkeys]
  refine positionFrom_agrees heq hkey (fun v hv => ?_) 0
  obtain ⟨e, he, rfl⟩ := List.mem_map.mp hv
  exact (hentries e he).1

theorem itemsEqual_agrees {as bs : List Value} (has : ∀ v ∈ as, v.Inert)
    (hbs : ∀ v ∈ bs, v.Inert) :
    Agrees base i (itemsEqual eq (as.map (·.behind base)) (bs.map (·.behind base)))
      (itemsEqual eq' as bs) := by
  induction as generalizing bs with
  | nil => exact .pure rfl trivial
  | cons a as ih =>
    cases bs with
    | nil => exact .pure rfl trivial
    | cons b bs =>
      obtain ⟨ha, has⟩ := List.forall_mem_cons.mp has
      obtain ⟨hb, hbs⟩ := List.forall_mem_cons.mp hbs
      refine (heq ha hb).bind fun same _ => ?_
      cases same with
      | true => exact ih has hbs
      | false => exact .pure rfl trivial

theorem elementsFound_agrees {others items : List Value} (hothers : ∀ v ∈ others, v.Inert)
    (hitems : ∀ v ∈ items, v.Inert) :
    Agrees base i (elementsFound eq (others.map (·.behind base)) (items.map (·.behind base)))
      (elementsFound eq' others items) := by
  induction items with
  | nil => exact .pure rfl trivial
  | cons item rest ih =>
    obtain ⟨hitem, hrest⟩ := List.forall_mem_cons.mp hitems
    refine (positionFrom_agrees heq hitem hothers 0).bind fun slot _ => ?_
    cases slot with
    | none => exact .pure rfl trivial
    | some j => exact ih hrest

theorem entriesFound_agrees {others entries : List (Value × Value)}
    (hothers : ∀ e ∈ others, e.1.Inert ∧ e.2.Inert)
    (hentries : ∀ e ∈ entries, e.1.Inert ∧ e.2.Inert) :
    Agrees base i (entriesFound eq (others.map (entryBehind base)) (entries.map (entryBehind base)))
      (entriesFound eq' others entries) := by
  induction entries with
  | nil => exact .pure rfl trivial
  | cons entry rest ih =>
    obtain ⟨hentry, hrest⟩ := List.forall_mem_cons.mp hentries
    refine (findKey_agrees heq hothers hentry.1).bind fun slot _ => ?_
    cases slot with
    | none => exact .pure rfl trivial
    | some j =>
      dsimp only [id]
      rw [List.getElem?_map]
      cases hj : others[j]? with
      | none => exact .pure rfl trivial
      | some other =>
        refine (heq hentry.2 (hothers other (List.mem_of_getElem? hj)).2).bind fun same _ => ?_
        cases same with
        | true => exact ih hrest
        | false => exact .pure rfl trivial

end Search

section Equality

variable {base : Heap} {i : Nat}

/-- Containers are the same one, or differ in size, or are compared part by part. -/
theorem container_agrees {α : Type} {read : Heap → Address → Array α} {move : α → α}
    {P : α → Prop} {offset : Nat}
    (hread : ∀ a, Moves base i (·.map move) (∀ x ∈ ·, P x) (Exec.look (read · (offset + a)))
      (Exec.look (read · a)))
    (compare compare' : List α → List α → Exec Bool)
    (hcompare : ∀ {ls rs}, (∀ x ∈ ls, P x) → (∀ x ∈ rs, P x) →
      Agrees base i (compare (ls.map move) (rs.map move)) (compare' ls rs)) (a b : Address) :
    Agrees base i
      (if offset + a = offset + b then pure true
        else do
          let l ← Exec.look (read · (offset + a))
          let r ← Exec.look (read · (offset + b))
          if l.size = r.size then compare l.toList r.toList else pure false)
      (if a = b then pure true
        else do
          let l ← Exec.look (read · a)
          let r ← Exec.look (read · b)
          if l.size = r.size then compare' l.toList r.toList else pure false) := by
  by_cases hab : a = b
  · rw [if_pos hab, if_pos (congrArg (offset + ·) hab)]
    exact .pure rfl trivial
  · rw [if_neg hab, if_neg fun h => hab (Nat.add_left_cancel h)]
    refine (hread a).bind fun l hl => (hread b).bind fun r hr => ?_
    rw [Array.size_map, Array.size_map, Array.toList_map, Array.toList_map]
    by_cases hsize : l.size = r.size
    · rw [if_pos hsize, if_pos hsize]
      exact hcompare (fun x hx => hl x (Array.mem_toList_iff.mp hx))
        fun x hx => hr x (Array.mem_toList_iff.mp hx)
    · rw [if_neg hsize, if_neg hsize]
      exact .pure rfl trivial

/-- Values that are no instances are compared without a call. -/
theorem valuesEqual_agrees (env env' : Env) (depth : Nat) {l r : Value} (hl : l.Inert)
    (hr : r.Inert) :
    Agrees base i (valuesEqual env depth (l.behind base) (r.behind base))
      (valuesEqual env' depth l r) := by
  induction depth generalizing l r with
  | zero => exact .throw _
  | succ depth ih =>
    cases l with
    | object _ _ => exact hl.elim
    | list a =>
      cases r with
      | list b => exact container_agrees look_list _ _ (itemsEqual_agrees ih) a b
      | _ => exact .pure rfl trivial
    | set a =>
      cases r with
      | set b =>
        exact container_agrees look_set (fun ls rs => elementsFound (valuesEqual env depth) rs ls)
          (fun ls rs => elementsFound (valuesEqual env' depth) rs ls)
          (fun hls hrs => elementsFound_agrees ih hrs hls) a b
      | _ => exact .pure rfl trivial
    | map a =>
      cases r with
      | map b =>
        exact container_agrees look_map (fun ls rs => entriesFound (valuesEqual env depth) rs ls)
          (fun ls rs => entriesFound (valuesEqual env' depth) rs ls)
          (fun hls hrs => entriesFound_agrees ih hrs hls) a b
      | _ => exact .pure rfl trivial
    | _ =>
      cases r with
      | object _ _ => exact hr.elim
      | _ => exact .pure rfl trivial

end Equality

/-! ## Hashes -/

section Hashes

variable {base : Heap} {i : Nat}

variable {hash hash' : Value → Exec Int64}

theorem hashAll_agrees
    (hhash : ∀ {v}, v.Inert → Agrees base i (hash (v.behind base)) (hash' v))
    {items : List Value} (hitems : ∀ v ∈ items, v.Inert) :
    Agrees base i (hashAll hash (items.map (·.behind base))) (hashAll hash' items) := by
  induction items with
  | nil => exact .pure rfl trivial
  | cons v rest ih =>
    obtain ⟨hv, hrest⟩ := List.forall_mem_cons.mp hitems
    exact (hhash hv).bind fun x _ => (ih hrest).bind fun xs _ => .pure rfl trivial

theorem hashEntries_agrees
    (hhash : ∀ {v}, v.Inert → Agrees base i (hash (v.behind base)) (hash' v))
    {entries : List (Value × Value)} (hentries : ∀ e ∈ entries, e.1.Inert ∧ e.2.Inert) :
    Agrees base i (hashEntries hash (entries.map (entryBehind base)))
      (hashEntries hash' entries) := by
  induction entries with
  | nil => exact .pure rfl trivial
  | cons entry rest ih =>
    obtain ⟨hentry, hrest⟩ := List.forall_mem_cons.mp hentries
    refine (hhash hentry.1).bind fun k _ => (hhash hentry.2).bind fun v _ => ?_
    exact (ih hrest).bind fun xs _ => .pure rfl trivial

theorem hashValue_agrees (env env' : Env) (depth : Nat) {v : Value} (hv : v.Inert) :
    Agrees base i (hashValue env depth (v.behind base)) (hashValue env' depth v) := by
  induction depth generalizing v with
  | zero => exact .throw _
  | succ depth ih =>
    cases v with
    | object _ _ => exact hv.elim
    | list a =>
      refine (look_list a).bind fun items hitems => ?_
      rw [Array.toList_map]
      refine (hashAll_agrees ih fun v hv => ?_).bind fun xs _ => .pure rfl trivial
      exact hitems v (Array.mem_toList_iff.mp hv)
    | set a =>
      refine (look_set a).bind fun items hitems => ?_
      rw [Array.toList_map]
      refine (hashAll_agrees ih fun v hv => ?_).bind fun xs _ => .pure rfl trivial
      exact hitems v (Array.mem_toList_iff.mp hv)
    | map a =>
      refine (look_map a).bind fun entries hentries => ?_
      rw [Array.toList_map]
      refine (hashEntries_agrees ih fun e he => ?_).bind fun xs _ => .pure rfl trivial
      exact hentries e (Array.mem_toList_iff.mp he)
    | _ => exact .pure rfl trivial

end Hashes

/-! ## Operators -/

section Operators

theorem asBool_behind (base : Heap) (v : Value) : asBool (v.behind base) = asBool v := by
  cases v <;> rfl

theorem applyUnary_behind (base : Heap) (op : UnaryOp) (v : Value) :
    applyUnary op (v.behind base) = applyUnary op v := by
  cases op <;> cases v <;> rfl

theorem applyBinary_behind (base : Heap) (op : BinaryOp) (l r : Value) :
    applyBinary op (l.behind base) (r.behind base) = applyBinary op l r := by
  cases l <;> cases r <;> rfl

variable {u : Value} {op : BinaryOp}

theorem applyUnary_scalar {op : UnaryOp} {v : Value} (h : applyUnary op v = .ok u) : u.Scalar := by
  unfold applyUnary at h
  split at h
  iterate 4
    cases h
    trivial
  cases h

theorem toRune_scalar {code : Int64} (h : toRune code = .ok u) : u.Scalar := by
  unfold toRune at h
  dsimp only at h
  split at h
  · cases h
    trivial
  · cases h

theorem numeric_scalar {kind : String} {wrap : Int64 → Except Fault Value}
    (hwrap : ∀ {n u}, wrap n = .ok u → u.Scalar) {l r : Int64}
    (h : numeric op kind wrap l r = .ok u) : u.Scalar := by
  unfold numeric at h
  generalize arithmetic? op l r = computed at h
  generalize comparison? op l r = compared at h
  cases computed with
  | some result =>
    cases result with
    | ok n => exact hwrap h
    | error f => cases h
  | none =>
    cases compared with
    | some answer =>
      cases h
      trivial
    | none => cases h

theorem applyBinary_scalar {l r : Value} (h : applyBinary op l r = .ok u) : u.Scalar := by
  unfold applyBinary at h
  split at h
  · refine numeric_scalar (fun {n u} hn => ?_) h
    cases hn
    trivial
  · exact numeric_scalar toRune_scalar h
  · split at h
    · cases h
      trivial
    · cases h
  · split at h
    · cases h
      trivial
    · cases h
      trivial
    · cases h
  · cases h

end Operators

/-! ## Expressions -/

section Evaluation

variable {base : Heap} {i : Nat} {env env' : Env} (hfuel : env'.fuel = env.fuel)

include hfuel

variable {l r v : Value}

theorem equal_agrees (hl : l.Inert) (hr : r.Inert) :
    Agrees base i (env.equal (l.behind base) (r.behind base)) (env'.equal l r) := by
  unfold Env.equal
  rw [hfuel]
  exact valuesEqual_agrees env env' env.fuel hl hr

theorem addElement_agrees (a : Address) (hv : v.Inert) :
    Agrees base i (addElement env (base.sets.size + a) (v.behind base)) (addElement env' a v) := by
  refine (look_set a).bind fun items hitems => ?_
  rw [Array.toList_map]
  refine (positionFrom_agrees (equal_agrees hfuel) hv (fun u hu => ?_) 0).bind fun slot _ => ?_
  · exact hitems u (Array.mem_toList_iff.mp hu)
  · cases slot with
    | none => exact pushElement_agrees a hv
    | some j => exact .pure rfl trivial

theorem putEntry_agrees (a : Address) {key : Value} (hkey : key.Inert) (hv : v.Inert) :
    Agrees base i (putEntry env (base.maps.size + a) (key.behind base) (v.behind base))
      (putEntry env' a key v) := by
  refine (look_map a).bind fun entries hentries => ?_
  rw [Array.toList_map]
  refine (findKey_agrees (equal_agrees hfuel) (fun e he => ?_) hkey).bind fun slot _ => ?_
  · exact hentries e (Array.mem_toList_iff.mp he)
  · cases slot with
    | none => exact pushEntry_agrees a hkey hv
    | some j => exact setEntry_agrees a j hv

theorem evalUnary_yields (op : UnaryOp) (hv : v.Inert) :
    Yields base i (evalUnary env op (v.behind base)) (evalUnary env' op v) := by
  have hother : Yields base i (Exec.ofExcept (applyUnary op (v.behind base)))
      (Exec.ofExcept (applyUnary op v)) := by
    rw [applyUnary_behind]
    exact .ofScalar fun _ => applyUnary_scalar
  cases op with
  | hash =>
    unfold evalUnary
    rw [hfuel]
    exact (hashValue_agrees env env' env.fuel hv).bind fun n _ => .pure rfl trivial
  | _ => exact hother

theorem evalBinary_yields (op : BinaryOp) (hl : l.Inert) (hr : r.Inert) :
    Yields base i (evalBinary env op (l.behind base) (r.behind base)) (evalBinary env' op l r) := by
  have hother : Yields base i (Exec.ofExcept (applyBinary op (l.behind base) (r.behind base)))
      (Exec.ofExcept (applyBinary op l r)) := by
    rw [applyBinary_behind]
    exact .ofScalar fun _ => applyBinary_scalar
  cases op with
  | equals | notEqual => exact (equal_agrees hfuel hl hr).bind fun same _ => .pure rfl trivial
  | _ => exact hother

omit hfuel in
theorem truth_agrees {x y : Exec Value} (h : Yields base i x y) :
    Agrees base i (truth x) (truth y) := by
  refine h.bind fun v _ => ?_
  rw [asBool_behind]
  exact .ofExcept _

theorem evalOperands_yields (op : BinaryOp) {left left' right right' : Exec Value}
    (hleft : Yields base i left left') (hright : Yields base i right right') :
    Yields base i (evalOperands env op left right) (evalOperands env' op left' right') := by
  have hother : Yields base i (left >>= fun l => right >>= fun r => evalBinary env op l r)
      (left' >>= fun l => right' >>= fun r => evalBinary env' op l r) :=
    hleft.bind fun l hl => hright.bind fun r hr => evalBinary_yields hfuel op hl hr
  have hanswer : Yields base i (truth right >>= fun b => pure (.bool b))
      (truth right' >>= fun b => pure (.bool b)) :=
    (truth_agrees hright).bind fun b _ => .pure rfl trivial
  cases op with
  | and =>
    refine (truth_agrees hleft).bind fun decided _ => ?_
    cases decided with
    | true => exact hanswer
    | false => exact .pure rfl trivial
  | or =>
    refine (truth_agrees hleft).bind fun decided _ => ?_
    cases decided with
    | true => exact .pure rfl trivial
    | false => exact hanswer
  | _ => exact hother

omit hfuel in
theorem evalAll_moves {es : List Expr}
    (hes : ∀ e ∈ es, Yields base i (eval env e) (eval env' e)) :
    Moves base i (·.map (·.behind base)) (∀ v ∈ ·, v.Inert) (evalAll env es) (evalAll env' es) := by
  induction es with
  | nil => exact .pure rfl (List.forall_mem_nil _)
  | cons e es ih =>
    obtain ⟨he, hes⟩ := List.forall_mem_cons.mp hes
    refine he.bind fun v hv => (ih hes).bind fun vs hvs => ?_
    exact .pure rfl (List.forall_mem_cons.mpr ⟨hv, hvs⟩)

theorem evalElements_agrees (a : Address) {es : List Expr}
    (hes : ∀ e ∈ es, Yields base i (eval env e) (eval env' e)) :
    Agrees base i (evalElements env (base.sets.size + a) es) (evalElements env' a es) := by
  induction es with
  | nil => exact .pure rfl trivial
  | cons e es ih =>
    obtain ⟨he, hes⟩ := List.forall_mem_cons.mp hes
    exact he.bind fun v hv => (addElement_agrees hfuel a hv).bind fun _ _ => ih hes

theorem evalEntries_agrees (a : Address) {entries : List (Expr × Expr)}
    (hentries : ∀ x ∈ entries, Yields base i (eval env x.1) (eval env' x.1) ∧
      Yields base i (eval env x.2) (eval env' x.2)) :
    Agrees base i (evalEntries env (base.maps.size + a) entries) (evalEntries env' a entries) := by
  induction entries with
  | nil => exact .pure rfl trivial
  | cons entry entries ih =>
    obtain ⟨⟨hkey, hvalue⟩, hentries⟩ := List.forall_mem_cons.mp hentries
    refine hkey.bind fun k hk => hvalue.bind fun v hv => ?_
    exact (putEntry_agrees hfuel a hk hv).bind fun _ _ => ih hentries

omit hfuel in
theorem readConstant_eq (p : Program) {id : ConstantId} {s : State} {v : Value}
    (h : s.constants.lookup id = some v) : readDefinition p (.constant id) s = .ok v s := by
  have hget (f : State → Exec Value) : (get >>= f) s = f s s := rfl
  refine (hget _).trans ?_
  rw [h]
  rfl

omit hfuel in
theorem readConstant_yields (p p' : Program) {id : ConstantId} (hid : id.index < i) :
    Yields base i (readDefinition p (.constant id)) (readDefinition p' (.constant id)) := by
  intro s t hst
  obtain ⟨v, ht, hv, hs⟩ := hst.constants id hid
  rw [readConstant_eq p hs, readConstant_eq p' ht]
  refine ⟨?_, fun a t' heq => ?_⟩
  · show EStateM.Result.ok _ s = .ok _ { s with heap := base.append t.heap }
    rw [← hst.heap]
  · cases heq
    exact ⟨hv, hst.inert, rfl⟩

/-- An expression of literals, operators and earlier constants comes to the same behind any
storage. -/
theorem eval_yields {e : Expr} (he : e.All (Expr.Frozen i)) :
    Yields base i (eval env e) (eval env' e) := by
  induction he with
  | @intro e hroot hbelow ih =>
    cases e with
    | bool _ | int _ | rune _ | string _ | null _ => exact .pure rfl trivial
    | emptyList _ =>
      exact newEmptyList_moves.bind fun a _ => .pure rfl trivial
    | emptySet _ => exact newSet_moves.bind fun a _ => .pure rfl trivial
    | emptyMap _ _ => exact newMap_moves.bind fun a _ => .pure rfl trivial
    | list items item =>
      refine (evalAll_moves ih).bind fun vs hvs => ?_
      rw [← List.map_toArray]
      exact (newList_moves fun v hv => hvs v (List.mem_toArray.mp hv)).bind fun a _ =>
        .pure rfl trivial
    | set items item =>
      refine newSet_moves.bind fun a _ => ?_
      exact (evalElements_agrees hfuel a ih).bind fun _ _ => .pure rfl trivial
    | map entries key value =>
      refine newMap_moves.bind fun a _ => ?_
      refine (evalEntries_agrees hfuel a fun x hx => ?_).bind fun _ _ => .pure rfl trivial
      have hmem := Expr.mem_children_map hx key value
      exact ⟨ih _ hmem.1, ih _ hmem.2⟩
    | unary op operand output =>
      exact (ih _ List.mem_cons_self).bind fun v hv => evalUnary_yields hfuel op hv
    | binary op left right output =>
      obtain ⟨hleft, hright⟩ := List.forall_mem_cons.mp ih
      exact evalOperands_yields hfuel op hleft (hright _ List.mem_cons_self)
    | var definition output =>
      cases definition with
      | constant id => exact readConstant_yields _ _ hroot
      | _ => exact hroot.elim
    | _ => exact hroot.elim

end Evaluation

end Scribe.Machine
