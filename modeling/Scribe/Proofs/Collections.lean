import Scribe.Proofs.Equivalence
import Scribe.Proofs.Representatives
import Scribe.Proofs.Slots

/-!
# Sets and maps hold what was put into them

Sets and maps are lists of items that are searched from their beginning. As long as the values in
them are plain and the storage inside these values is not modified (`Heap.Fixed`), every search
comes to the answer that `Heap.equal` gives, and so a set is what the values that were added to it
make up (`SetHistory`), and a map what the keys and values that were assigned make up
(`MapHistory`). What a lookup gives follows from that (`lookupValue_eq`), and literals are such
histories, too (`setLiteral_history`, `mapLiteral_history`).
-/

namespace Scribe.Machine

open Scribe.Core
open Scribe.Lowering.Step (bind_of_ok)

/-! ## Values whose storage is not modified -/

namespace Heap

/-- A piece of storage is the same as before. -/
def SameAt (h h' : Heap) : Cell → Prop
  | .list a => h'.list a = h.list a
  | .set a => h'.set a = h.set a
  | .map a => h'.map a = h.map a
  | .object a => h'.fields a = h.fields a

/-- The storage that one comes to from a value through containers is the same as before. -/
def Unmodified (h h' : Heap) (v : Value) : Prop :=
  ∀ u c, h.Within v u → u.cell? = some c → h.containers.SameAt h'.containers c

/-- A value that is plain, and whose storage is not modified. -/
structure Fixed (p : Program) (h h' : Heap) (v : Value) : Prop where
  plain : h.Plain p v
  unmodified : h.Unmodified h' v

variable {p : Program} {h h' : Heap} {v u l r : Value}

theorem Unmodified.has (hv : h.Unmodified h' v) (hu : h.containers.Has v u) :
    h.Unmodified h' u :=
  fun w c hw hc => hv w c (.head hu hw) hc

theorem Unmodified.meaning_eq (hv : h.Unmodified h' v) (n : Nat) :
    h'.meaning n v = h.meaning n v := by
  induction n generalizing v with
  | zero => rfl
  | succ n ih =>
    cases v with
    | list a =>
      have hlist : h'.list a = h.list a := hv _ (.list a) .refl rfl
      show Shape.list _ = Shape.list _
      rw [hlist]
      exact congrArg _ (List.map_congr_left fun u hu => ih (hv.has ⟨_, rfl, hu⟩))
    | set a =>
      have hset : h'.set a = h.set a := hv _ (.set a) .refl rfl
      show Shape.set _ = Shape.set _
      rw [hset]
      refine congrArg _ (congrArg _ (List.map_congr_left fun u hu => ?_))
      exact ih (hv.has ⟨_, rfl, hu⟩)
    | map a =>
      have hmap : h'.map a = h.map a := hv _ (.map a) .refl rfl
      show Shape.map _ = Shape.map _
      rw [hmap]
      refine congrArg _ (congrArg _ (List.map_congr_left fun e he => ?_))
      have hpart {u : Value} (hu : u ∈ [e.1, e.2]) : h'.meaning n u = h.meaning n u :=
        ih (hv.has ⟨_, rfl, List.mem_flatMap.mpr ⟨e, he, hu⟩⟩)
      exact Prod.ext (hpart (by simp)) (hpart (by simp))
    | _ => rfl

theorem Unmodified.comparable (hv : h.Unmodified h' v) {n : Nat} (hn : h.Comparable p n v) :
    h'.Comparable p n v := by
  induction n generalizing v with
  | zero => exact hn
  | succ n ih =>
    cases v with
    | list a =>
      have hlist : h'.list a = h.list a := hv _ (.list a) .refl rfl
      show ∀ u ∈ (h'.list a).toList, _
      rw [hlist]
      exact fun u hu => ih (hv.has ⟨_, rfl, hu⟩) (hn u hu)
    | set a =>
      have hset : h'.set a = h.set a := hv _ (.set a) .refl rfl
      show (∀ u ∈ (h'.set a).toList, _) ∧ ((h'.set a).toList.map _).Nodup
      rw [hset]
      have hmeaning (u : Value) (hu : u ∈ (h.set a).toList) : h'.meaning n u = h.meaning n u :=
        (hv.has ⟨_, rfl, hu⟩).meaning_eq n
      refine ⟨fun u hu => ih (hv.has ⟨_, rfl, hu⟩) (hn.1 u hu), ?_⟩
      rw [List.map_congr_left hmeaning]
      exact hn.2
    | map a =>
      have hmap : h'.map a = h.map a := hv _ (.map a) .refl rfl
      have hpart {e : Value × Value} (he : e ∈ (h.map a).toList) {u : Value}
          (hu : u ∈ [e.1, e.2]) : h.Unmodified h' u :=
        hv.has ⟨_, rfl, List.mem_flatMap.mpr ⟨e, he, hu⟩⟩
      show (∀ e ∈ (h'.map a).toList, _) ∧ ((h'.map a).toList.map _).Nodup
      rw [hmap]
      refine ⟨fun e he => ⟨ih (hpart he (by simp)) (hn.1 e he).1,
        ih (hpart he (by simp)) (hn.1 e he).2⟩, ?_⟩
      rw [List.map_congr_left fun e he => (hpart he (List.mem_cons_self)).meaning_eq n]
      exact hn.2
    | _ => exact hn

/-- How fixed values are compared: by what they mean. -/
def same (h : Heap) : Value → Value → Bool :=
  h.alike (h.size + 1)

theorem same_eq (h : Heap) (x y : Value) :
    h.same x y = decide (h.meaning (h.size + 1) x = h.meaning (h.size + 1) y) :=
  rfl

theorem same_self (h : Heap) (x : Value) : h.same x x = true :=
  alike_self _ x

theorem same_comm (h : Heap) (x y : Value) : h.same x y = h.same y x := by
  rw [same_eq, same_eq, decide_eq_decide]
  exact eq_comm

/-- Comparisons of fixed values come to the answer that they had before. -/
theorem Fixed.equal_reads {env : Env} (henv : env.program = p) (hfuel : h.size < env.fuel)
    (hl : h.Fixed p h' l) (hr : h.Fixed p h' r) : Reads h' (env.equal l r) (h.same l r) := by
  have hl' := hl.unmodified.comparable hl.plain.comparable
  have hr' := hr.unmodified.comparable hr.plain.comparable
  refine (valuesEqual_reads henv hl' hr' hfuel).congr ?_
  rw [alike, hl.unmodified.meaning_eq, hr.unmodified.meaning_eq, same, alike]

end Heap

/-! ## Sets -/

/-- How a set has come about: it was empty, and values were added to it, which were fixed at the
time. In between anything may have happened that left the set alone. -/
inductive SetHistory (p : Program) (h : Heap) (env : Env) (a : Address) :
    List Value → State → Prop where
  | empty {s} (hs : s.heap.sets[a]? = some #[]) : SetHistory p h env a [] s
  | later {vs s t} (hs : SetHistory p h env a vs s) (hsame : t.heap.sets[a]? = s.heap.sets[a]?) :
      SetHistory p h env a vs t
  | add {vs v s t} (hs : SetHistory p h env a vs s) (hfixed : ∀ u ∈ v :: vs, h.Fixed p s.heap u)
      (hadd : addToSet env (.set a) v s = .ok () t) : SetHistory p h env a (vs ++ [v]) t

section Sets

variable {p : Program} {h : Heap} {env : Env} (henv : env.program = p)
  (hfuel : h.size < env.fuel) {a : Address} {vs : List Value} {v x : Value} {s t : State}

include henv hfuel

/-- A set that holds the first representatives of some values is searched for a value. -/
theorem position_reads {items : List Value} (hitems : items = firsts h.same vs)
    (hfixed : ∀ u ∈ x :: vs, h.Fixed p s.heap u) :
    ∃ slot, position env.equal items x s = .ok slot s ∧ slot.isSome = vs.any (h.same · x) := by
  obtain ⟨hx, hvs⟩ := List.forall_mem_cons.mp hfixed
  have hreads : Reads s.heap (position env.equal items x) (items.findIdx? (h.same · x)) := by
    refine .position fun u hu => Heap.Fixed.equal_reads henv hfuel (hvs u ?_) hx
    exact mem_of_mem_firsts (hitems ▸ hu)
  refine ⟨_, hreads s rfl, ?_⟩
  rw [List.findIdx?_isSome, hitems, any_firsts h.same_eq]

theorem addToSet_eq {items : Array Value} (hset : s.heap.sets[a]? = some items)
    (hitems : items.toList = firsts h.same vs) (hfixed : ∀ u ∈ v :: vs, h.Fixed p s.heap u) :
    ∃ t, addToSet env (.set a) v s = .ok () t ∧
      t = (if vs.any (h.same · v) then s else { s with heap := s.heap.pushElement a v }) := by
  obtain ⟨slot, hslot, hany⟩ := position_reads henv hfuel hitems hfixed
  refine ⟨_, ?_, rfl⟩
  show addElement env a v s = _
  unfold addElement
  rw [bind_of_ok (show Exec.look (·.set a) s = .ok items s by simp [Exec.look, Heap.set, hset]),
    bind_of_ok hslot, ← hany]
  cases slot <;> rfl

theorem SetHistory.items (hs : SetHistory p h env a vs s) :
    ∃ items, s.heap.sets[a]? = some items ∧ items.toList = firsts h.same vs := by
  induction hs with
  | empty hs => exact ⟨#[], hs, rfl⟩
  | later hs hsame ih => exact hsame ▸ ih
  | @add vs v s t hs hfixed hadd ih =>
    obtain ⟨items, hset, hitems⟩ := ih
    obtain ⟨t', hadd', ht⟩ := addToSet_eq henv hfuel hset hitems hfixed
    cases hadd.symm.trans hadd'
    rw [firsts_concat]
    by_cases hv : vs.any (h.same · v) = true
    · rw [if_pos hv] at ht ⊢
      subst ht
      exact ⟨items, hset, by simpa using hitems⟩
    · rw [if_neg hv] at ht ⊢
      subst ht
      refine ⟨items.push v, ?_, by rw [Array.toList_push, hitems]⟩
      simp [Heap.pushElement, Array.getElem?_modify, hset]

/-- A fixed value can be added. -/
theorem SetHistory.exists_add (hs : SetHistory p h env a vs s)
    (hfixed : ∀ u ∈ v :: vs, h.Fixed p s.heap u) :
    ∃ t, addToSet env (.set a) v s = .ok () t ∧ SetHistory p h env a (vs ++ [v]) t := by
  obtain ⟨items, hset, hitems⟩ := hs.items henv hfuel
  obtain ⟨t, hadd, _⟩ := addToSet_eq henv hfuel hset hitems hfixed
  exact ⟨t, hadd, hs.add hfixed hadd⟩

end Sets

/-! ## Maps -/

/-- How a map has come about: it was empty, and keys got values, which keys were fixed at the time.
In between anything may have happened that left the map alone. -/
inductive MapHistory (p : Program) (h : Heap) (env : Env) (a : Address) :
    List (Value × Value) → State → Prop where
  | empty {s} (hs : s.heap.maps[a]? = some #[]) : MapHistory p h env a [] s
  | later {pairs s t} (hs : MapHistory p h env a pairs s)
      (hsame : t.heap.maps[a]? = s.heap.maps[a]?) : MapHistory p h env a pairs t
  | assign {pairs k w s t} (hs : MapHistory p h env a pairs s)
      (hfixed : ∀ u ∈ k :: pairs.map (·.1), h.Fixed p s.heap u)
      (hassign : assignElement env (.map a) k w s = .ok () t) :
      MapHistory p h env a (pairs ++ [(k, w)]) t

/-- The entries that some pairs of keys and values make up. -/
structure MadeUpOf (same : Value → Value → Bool) (pairs : List (Value × Value))
    (entries : Array (Value × Value)) : Prop where
  keys : keysOf entries = firsts same (pairs.map (·.1))
  values : ∀ e ∈ entries.toList, lastFor same pairs e.1 = some e.2

section Entries

variable {h : Heap} {pairs : List (Value × Value)} {entries : Array (Value × Value)} {k w : Value}
  (hentries : MadeUpOf h.same pairs entries)

include hentries

theorem MadeUpOf.any_eq (k : Value) :
    entries.toList.any (fun e => h.same e.1 k) = (pairs.map (·.1)).any (h.same · k) := by
  rw [← any_firsts h.same_eq, ← hentries.keys, keysOf, List.any_map]
  rfl

theorem MadeUpOf.lastFor_eq_none_iff :
    lastFor h.same pairs k = none ↔ ∀ e ∈ entries.toList, h.same e.1 k = false := by
  have hnone (es : List (Value × Value)) :
      (∀ e ∈ es, h.same e.1 k = false) ↔ es.any (fun e => h.same e.1 k) = false := by
    simp only [List.any_eq_false, Bool.not_eq_true]
  rw [Machine.lastFor_eq_none_iff, hnone, hnone, hentries.any_eq, List.any_map]
  rfl

theorem MadeUpOf.nodup :
    (entries.toList.map fun e => h.meaning (h.size + 1) e.1).Nodup := by
  have hpairwise := firsts_pairwise h.same (pairs.map (·.1))
  rw [← hentries.keys, keysOf, List.pairwise_map] at hpairwise
  exact List.pairwise_map.mpr (hpairwise.imp fun hne => of_decide_eq_false hne)

theorem MadeUpOf.push (hnone : ∀ e ∈ entries.toList, h.same e.1 k = false) :
    MadeUpOf h.same (pairs ++ [(k, w)]) (entries.push (k, w)) where
  keys := by
    have hany : ¬(pairs.map (·.1)).any (h.same · k) = true := by
      rw [← hentries.any_eq k, List.any_eq_true]
      rintro ⟨e, he, heq⟩
      exact Bool.false_ne_true ((hnone e he).symm.trans heq)
    rw [List.map_append, List.map_singleton, firsts_concat, if_neg hany, ← hentries.keys]
    simp [keysOf]
  values e he := by
    rw [lastFor_concat]
    obtain he | rfl : e ∈ entries.toList ∨ e = (k, w) := by simpa using he
    · rw [h.same_comm, hnone e he]
      exact hentries.values e he
    · rw [h.same_self, if_pos rfl]

theorem MadeUpOf.set {i : Nat} (hi : entries.toList.findIdx? (fun e => h.same e.1 k) = some i) :
    MadeUpOf h.same (pairs ++ [(k, w)]) (entries.modify i fun e => (e.1, w)) where
  keys := by
    have hany : (pairs.map (·.1)).any (h.same · k) = true := by
      rw [← hentries.any_eq k, ← List.findIdx?_isSome, hi]
      rfl
    rw [List.map_append, List.map_singleton, firsts_concat, if_pos hany, List.append_nil,
      ← hentries.keys, keysOf_modify]
  values e he := by
    obtain ⟨hlt, hfound, _⟩ := List.findIdx?_eq_some_iff_getElem.mp hi
    rw [h.same_eq, decide_eq_true_iff] at hfound
    obtain ⟨j, hj⟩ := List.mem_iff_getElem?.mp he
    rw [Array.getElem?_toList, Array.getElem?_modify] at hj
    rw [lastFor_concat, h.same_eq]
    by_cases hij : i = j
    · -- the entry that was found
      subst hij
      rw [if_pos rfl, Option.map_eq_some_iff] at hj
      obtain ⟨found, hget, rfl⟩ := hj
      have hmeaning : h.meaning (h.size + 1) k = h.meaning (h.size + 1) found.1 := by
        rw [← hfound, (List.getElem?_eq_some_iff.mp (Array.getElem?_toList.trans hget)).2]
      rw [if_pos (decide_eq_true hmeaning)]
    · -- another one, whose key is not the same
      rw [if_neg hij] at hj
      have hget : entries.toList[j]? = some e := Array.getElem?_toList.trans hj
      have hmeaning : h.meaning (h.size + 1) k ≠ h.meaning (h.size + 1) e.1 := by
        intro hmeaning
        refine hij ((List.getElem?_inj (by simpa using hlt) hentries.nodup).mp ?_)
        rw [List.getElem?_map, List.getElem?_map, hget, List.getElem?_eq_getElem hlt]
        exact congrArg some (hfound.trans hmeaning)
      rw [decide_eq_false hmeaning]
      exact hentries.values e (List.mem_of_getElem? hget)

end Entries

/-- How a lookup ends that finds a value, or none. Without a value it gives up with the text of the
key, or has no end if the key has no text. -/
def lookupResult (s : State) (map : Address) (key : Value) :
    Option Value → EStateM.Result Stop State Value
  | some v => .ok v s
  | none =>
    match text? s.heap key with
    | some text => .error (.fault (.missingKey text)) s
    | none => .error (.endless map key) s

section Maps

variable {p : Program} {h : Heap} {env : Env} (henv : env.program = p)
  (hfuel : h.size < env.fuel) {a : Address} {pairs : List (Value × Value)} {k w : Value}
  {s t : State} {entries : Array (Value × Value)}

include henv hfuel

theorem findKey_reads (hentries : MadeUpOf h.same pairs entries)
    (hfixed : ∀ u ∈ k :: pairs.map (·.1), h.Fixed p s.heap u) :
    findKey env.equal entries.toList k s =
      .ok (entries.toList.findIdx? fun e => h.same e.1 k) s := by
  obtain ⟨hk, hkeys⟩ := List.forall_mem_cons.mp hfixed
  refine Reads.findKey (fun e he => ?_) s rfl
  have hmem : e.1 ∈ firsts h.same (pairs.map (·.1)) := by
    rw [← hentries.keys]
    exact List.mem_map_of_mem he
  exact Heap.Fixed.equal_reads henv hfuel (hkeys e.1 (mem_of_mem_firsts hmem)) hk

/-- An assignment changes the map as its keys and values ask for, and nothing else. -/
theorem assignElement_made (hmap : s.heap.maps[a]? = some entries)
    (hentries : MadeUpOf h.same pairs entries)
    (hfixed : ∀ u ∈ k :: pairs.map (·.1), h.Fixed p s.heap u) (w : Value) :
    ∃ f, assignElement env (.map a) k w s =
        .ok () { s with heap := { s.heap with maps := s.heap.maps.modify a f } } ∧
      MadeUpOf h.same (pairs ++ [(k, w)]) (f entries) := by
  have hlook : Exec.look (·.map a) s = .ok entries s := by simp [Exec.look, Heap.map, hmap]
  have hfind := findKey_reads henv hfuel hentries hfixed
  show ∃ f, putEntry env a k w s = _ ∧ _
  unfold putEntry
  rw [bind_of_ok hlook, bind_of_ok hfind]
  cases hslot : entries.toList.findIdx? fun e => h.same e.1 k with
  | none =>
    refine ⟨fun entries => entries.push (k, w), rfl, hentries.push fun e he => ?_⟩
    exact List.findIdx?_eq_none_iff.mp hslot e he
  | some i => exact ⟨fun entries => entries.modify i fun e => (e.1, w), rfl, hentries.set hslot⟩

theorem MapHistory.madeUp (hs : MapHistory p h env a pairs s) :
    ∃ entries, s.heap.maps[a]? = some entries ∧ MadeUpOf h.same pairs entries := by
  induction hs with
  | empty hs => exact ⟨#[], hs, rfl, by simp⟩
  | later hs hsame ih => exact hsame ▸ ih
  | @assign pairs k w s t hs hfixed hassign ih =>
    obtain ⟨entries, hmap, hentries⟩ := ih
    obtain ⟨f, hassign', hmade⟩ := assignElement_made henv hfuel hmap hentries hfixed w
    cases hassign.symm.trans hassign'
    exact ⟨f entries, by simp [Array.getElem?_modify, hmap], hmade⟩

/-- A fixed key can be assigned. -/
theorem MapHistory.exists_assign (hs : MapHistory p h env a pairs s)
    (hfixed : ∀ u ∈ k :: pairs.map (·.1), h.Fixed p s.heap u) (w : Value) :
    ∃ t, assignElement env (.map a) k w s = .ok () t ∧
      MapHistory p h env a (pairs ++ [(k, w)]) t := by
  obtain ⟨entries, hmap, hentries⟩ := hs.madeUp henv hfuel
  obtain ⟨f, hassign, _⟩ := assignElement_made henv hfuel hmap hentries hfixed w
  exact ⟨_, hassign, hs.assign hfixed hassign⟩

theorem lookupValue_eq (hs : MapHistory p h env a pairs s)
    (hfixed : ∀ u ∈ k :: pairs.map (·.1), h.Fixed p s.heap u) :
    lookupValue env .map (.map a) k s = lookupResult s a k (lastFor h.same pairs k) := by
  obtain ⟨entries, hmap, hentries⟩ := hs.madeUp henv hfuel
  have hlook : Exec.look (·.map a) s = .ok entries s := by simp [Exec.look, Heap.map, hmap]
  have hfind := findKey_reads henv hfuel hentries hfixed
  unfold lookupValue
  dsimp only
  rw [bind_of_ok hlook, bind_of_ok hfind]
  cases hslot : entries.toList.findIdx? fun e => h.same e.1 k with
  | none =>
    have hlast : lastFor h.same pairs k = none := by
      rw [hentries.lastFor_eq_none_iff]
      exact List.findIdx?_eq_none_iff.mp hslot
    rw [hlast, lookupResult]
    dsimp only
    rw [bind_of_ok (show Exec.look (text? · k) s = .ok (text? s.heap k) s from rfl)]
    cases text? s.heap k <;> rfl
  | some i =>
    obtain ⟨hlt, hfound, _⟩ := List.findIdx?_eq_some_iff_getElem.mp hslot
    have hvalue := hentries.values _ (List.getElem_mem hlt)
    rw [lastFor_eq_of_same h.same_eq hfound] at hvalue
    rw [hvalue]
    dsimp only
    rw [← Array.getElem?_toList, List.getElem?_eq_getElem hlt]
    rfl

end Maps

/-! ## Literals

A literal evaluates its items one after another, and puts each into the new container before it
goes on with the next. -/

section Literals

variable {β : Type}

/-- Evaluates items and hands each of them on before the next one. -/
def feed (op : β → Exec Unit) : List (Exec β) → Exec Unit
  | [] => return ()
  | act :: acts => do
    op (← act)
    feed op acts

/-- Items evaluate to values, in the states in which a literal evaluates them; each of them is ready
to be handed on, with regard to those before it and to the state before its evaluation. -/
def Feeds (op : β → Exec Unit) (ready : List β → β → State → State → Prop) :
    List β → List (Exec β) → List β → State → Prop
  | _, [], [], _ => True
  | seen, act :: acts, x :: xs, s => ∃ t, act s = .ok x t ∧ ready seen x s t ∧
      ∀ t', op x t = .ok () t' → Feeds op ready (seen ++ [x]) acts xs t'
  | _, _, _, _ => False

/-- What each item that is handed on brings forward holds at the end. -/
theorem feed_eq_ok {op : β → Exec Unit} {ready : List β → β → State → State → Prop}
    {Inv : List β → State → Prop}
    (hop : ∀ {seen x s t}, Inv seen s → ready seen x s t →
      ∃ t', op x t = .ok () t' ∧ Inv (seen ++ [x]) t')
    {seen xs : List β} {acts : List (Exec β)} {s : State} (hs : Inv seen s)
    (hfeeds : Feeds op ready seen acts xs s) :
    ∃ t, feed op acts s = .ok () t ∧ Inv (seen ++ xs) t := by
  induction acts generalizing seen xs s with
  | nil =>
    cases xs with
    | nil => exact ⟨s, rfl, by simpa using hs⟩
    | cons x xs => exact hfeeds.elim
  | cons act acts ih =>
    cases xs with
    | nil => exact hfeeds.elim
    | cons x xs =>
      obtain ⟨s1, hs1, hready, hfeeds⟩ := hfeeds
      obtain ⟨s2, hs2, hinv⟩ := hop hs hready
      obtain ⟨t, ht, hinv⟩ := ih hinv (hfeeds s2 hs2)
      refine ⟨t, ?_, by simpa using hinv⟩
      rw [feed, bind_of_ok hs1, bind_of_ok hs2, ht]

/-- The key and the value of an entry. -/
def evalEntry (env : Env) (entry : Expr × Expr) : Exec (Value × Value) := do
  let k ← eval env entry.1
  let w ← eval env entry.2
  return (k, w)

theorem evalElements_eq_feed (env : Env) (a : Address) (es : List Expr) :
    evalElements env a es = feed (addToSet env (.set a)) (es.map (eval env)) := by
  induction es with
  | nil => rfl
  | cons e es ih =>
    rw [evalElements, List.map_cons, feed, ih]
    rfl

theorem evalEntries_eq_feed (env : Env) (a : Address) (entries : List (Expr × Expr)) :
    evalEntries env a entries =
      feed (fun e => assignElement env (.map a) e.1 e.2) (entries.map (evalEntry env)) := by
  induction entries with
  | nil => rfl
  | cons entry entries ih =>
    rw [evalEntries, List.map_cons, feed, ih, evalEntry]
    simp only [bind_assoc, pure_bind]
    rfl

end Literals

/-- The items of a set literal evaluate to values that are fixed when they are added. The evaluation
leaves the new set alone. -/
def SetItems (p : Program) (h : Heap) (env : Env) (a : Address) (items : List Expr) :
    List Value → State → Prop :=
  Feeds (addToSet env (.set a)) (fun seen v s t => t.heap.sets[a]? = s.heap.sets[a]? ∧
    ∀ u ∈ v :: seen, h.Fixed p t.heap u) [] (items.map (eval env))

/-- The entries of a map literal evaluate to pairs whose keys are fixed when they are assigned. The
evaluation leaves the new map alone. -/
def MapItems (p : Program) (h : Heap) (env : Env) (a : Address) (entries : List (Expr × Expr)) :
    List (Value × Value) → State → Prop :=
  Feeds (fun e => assignElement env (.map a) e.1 e.2) (fun seen e s t =>
    t.heap.maps[a]? = s.heap.maps[a]? ∧ ∀ u ∈ e.1 :: seen.map (·.1), h.Fixed p t.heap u) []
    (entries.map (evalEntry env))

section LiteralHistories

variable {p : Program} {h : Heap} {env : Env} (henv : env.program = p)
  (hfuel : h.size < env.fuel) {s : State}

include henv hfuel

theorem setLiteral_history {items : List Expr} {vs : List Value}
    (hitems : SetItems p h env s.heap.sets.size items vs
      { s with heap := (s.heap.newSet #[]).2 }) (item : Ty) :
    ∃ t, eval env (.set items item) s = .ok (.set s.heap.sets.size) t ∧
      SetHistory p h env s.heap.sets.size vs t := by
  have hstart : SetHistory p h env s.heap.sets.size []
      { s with heap := (s.heap.newSet #[]).2 } := .empty (by simp [Heap.newSet])
  obtain ⟨t, ht, hhistory⟩ := feed_eq_ok
    (fun hs hready => (hs.later hready.1).exists_add henv hfuel hready.2) hstart hitems
  refine ⟨t, ?_, hhistory⟩
  rw [eval, bind_of_ok (show Exec.alloc (·.newSet #[]) s =
    .ok s.heap.sets.size { s with heap := (s.heap.newSet #[]).2 } from rfl),
    evalElements_eq_feed, bind_of_ok ht]
  rfl

theorem mapLiteral_history {entries : List (Expr × Expr)} {pairs : List (Value × Value)}
    (hentries : MapItems p h env s.heap.maps.size entries pairs
      { s with heap := (s.heap.newMap #[]).2 }) (key value : Ty) :
    ∃ t, eval env (.map entries key value) s = .ok (.map s.heap.maps.size) t ∧
      MapHistory p h env s.heap.maps.size pairs t := by
  have hstart : MapHistory p h env s.heap.maps.size []
      { s with heap := (s.heap.newMap #[]).2 } := .empty (by simp [Heap.newMap])
  obtain ⟨t, ht, hhistory⟩ := feed_eq_ok
    (fun hs hready => (hs.later hready.1).exists_assign henv hfuel hready.2 _) hstart hentries
  refine ⟨t, ?_, hhistory⟩
  rw [eval, bind_of_ok (show Exec.alloc (·.newMap #[]) s =
    .ok s.heap.maps.size { s with heap := (s.heap.newMap #[]).2 } from rfl),
    evalEntries_eq_feed, bind_of_ok ht]
  rfl

end LiteralHistories

end Scribe.Machine
