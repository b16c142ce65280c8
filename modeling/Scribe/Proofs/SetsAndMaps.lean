import Scribe.Lowering.Module
import Scribe.Proofs.Collections

/-!
# Sets and maps are sets and finite maps

After any additions a set holds the first of each class of equal values, in the order in which they
came, and knows exactly the values that are equal to one of them. After any assignments a map holds
the first of each class of equal keys, and a lookup gives the value that came last for an equal key
(`collections_refine`).

A lookup without an equal key stops with an error that names the key. For that it needs the text of
the key, so it does not stop if the key contains itself, be it through the fields of an instance
(`find_never_ends`).
-/

namespace Scribe.Machine

open Scribe.Core
open Scribe.Lowering.Step (bind_of_ok)
open Scribe.Lowering

/-! ## What sets and maps hold -/

/-- A set that holds some values: the first of each class, and each of them once. -/
structure HoldsSet (p : Program) (h : Heap) (vs : List Value) (items : Array Value) : Prop where
  items_eq : items.toList = firsts (h.equal p) vs
  distinct : items.toList.Pairwise fun x y => h.equal p x y = false
  size_eq : items.size = (classes (h.equal p) vs).card

/-- A map that holds some pairs: the first key of each class, and for each of them the last value. -/
structure HoldsMap (p : Program) (h : Heap) (pairs : List (Value × Value))
    (entries : Array (Value × Value)) : Prop where
  keys_eq : keysOf entries = firsts (h.equal p) (pairs.map (·.1))
  distinct : (keysOf entries).Pairwise fun x y => h.equal p x y = false
  values_eq : ∀ e ∈ entries.toList, lastFor (h.equal p) pairs e.1 = some e.2

section Histories

variable {p : Program} {h : Heap} {env : Env} {a : Address} {vs : List Value}
  {pairs : List (Value × Value)} {s t : State}

theorem SetHistory.plain (hs : SetHistory p h env a vs s) : ∀ v ∈ vs, h.Plain p v := by
  induction hs with
  | empty hs => exact List.forall_mem_nil _
  | later hs hsame ih => exact ih
  | add hs hfixed hadd ih =>
    refine List.forall_mem_append.mpr ⟨ih, List.forall_mem_singleton.mpr ?_⟩
    exact (hfixed _ List.mem_cons_self).plain

theorem MapHistory.plain (hs : MapHistory p h env a pairs s) :
    ∀ k ∈ pairs.map (·.1), h.Plain p k := by
  induction hs with
  | empty hs => exact List.forall_mem_nil _
  | later hs hsame ih => exact ih
  | assign hs hfixed hassign ih =>
    rw [List.map_append]
    refine List.forall_mem_append.mpr ⟨ih, List.forall_mem_singleton.mpr ?_⟩
    exact (hfixed _ List.mem_cons_self).plain

/-- Equality of plain values is `Heap.same`. -/
theorem equal_eq_same (hvs : ∀ v ∈ vs, h.Plain p v) :
    ∀ u ∈ vs, ∀ v ∈ vs, h.equal p u v = h.same u v :=
  fun u hu v hv => (hvs u hu).equal_eq (hvs v hv)

variable (henv : env.program = p) (hfuel : h.size < env.fuel)

include henv hfuel

theorem SetHistory.holds (hs : SetHistory p h env a vs s) : HoldsSet p h vs (s.heap.set a) := by
  obtain ⟨items, hset, hitems⟩ := hs.items henv hfuel
  have hequal := equal_eq_same hs.plain
  have hfirsts : items.toList = firsts (h.equal p) vs := by rw [hitems, firsts_congr hequal]
  have hget : s.heap.set a = items := by simp [Heap.set, hset]
  rw [hget]
  refine ⟨hfirsts, hfirsts ▸ firsts_pairwise _ vs, ?_⟩
  rw [← Array.length_toList, hitems, length_firsts h.same_eq, classes_congr hequal]

theorem MapHistory.holds (hs : MapHistory p h env a pairs s) :
    HoldsMap p h pairs (s.heap.map a) := by
  obtain ⟨entries, hmap, hentries⟩ := hs.madeUp henv hfuel
  have hequal := equal_eq_same hs.plain
  have hkeys : keysOf entries = firsts (h.equal p) (pairs.map (·.1)) := by
    rw [hentries.keys, firsts_congr hequal]
  have hget : s.heap.map a = entries := by simp [Heap.map, hmap]
  rw [hget]
  refine ⟨hkeys, hkeys ▸ firsts_pairwise _ _, fun e he => ?_⟩
  have hmem : e.1 ∈ pairs.map (·.1) := by
    refine mem_of_mem_firsts (?_ : e.1 ∈ firsts h.same (pairs.map (·.1)))
    rw [← hentries.keys]
    exact List.mem_map_of_mem he
  rw [← hentries.values e he]
  exact lastFor_congr fun d hd => hequal _ (List.mem_map_of_mem hd) _ hmem

/-- Membership is asked of the set as it is before the value is evaluated. -/
theorem SetHistory.contains (hs : SetHistory p h env a vs s) {set value : Expr} {x : Value}
    {s0 : State} (hset : eval env set s0 = .ok (.set a) s) (hvalue : eval env value s = .ok x t)
    (hfixed : ∀ u ∈ x :: vs, h.Fixed p t.heap u) :
    eval env (.contains set value) s0 = .ok (.bool (vs.any fun v => h.equal p v x)) t := by
  obtain ⟨items, hget, hitems⟩ := hs.items henv hfuel
  obtain ⟨slot, hslot, hany⟩ := position_reads henv hfuel hitems hfixed
  have helements : elementsOf (.set a) s = .ok items.toList s := by
    show EStateM.Result.ok (s.heap.set a).toList s = _
    rw [Heap.set, hget, Option.getD_some]
  have hequal : vs.any (fun v => h.equal p v x) = vs.any (h.same · x) := by
    rw [Bool.eq_iff_iff, List.any_eq_true, List.any_eq_true]
    refine exists_congr fun v => and_congr_right fun hv => ?_
    rw [(hs.plain v hv).equal_eq (hfixed x List.mem_cons_self).plain, Heap.same]
  rw [eval, bind_of_ok hset, bind_of_ok helements, bind_of_ok hvalue, bind_of_ok hslot, hequal,
    ← hany]
  rfl

theorem MapHistory.lookup (hs : MapHistory p h env a pairs s) {container key : Expr} {k : Value}
    {s0 s1 : State} (hcontainer : eval env container s0 = .ok (.map a) s1)
    (hkey : eval env key s1 = .ok k s) (hfixed : ∀ u ∈ k :: pairs.map (·.1), h.Fixed p s.heap u)
    (output : Ty) :
    eval env (.lookup container key .map output) s0 =
      lookupResult s a k (lastFor (h.equal p) pairs k) := by
  have hequal : lastFor (h.equal p) pairs k = lastFor h.same pairs k := by
    refine lastFor_congr fun e he => ?_
    exact (hs.plain _ (List.mem_map_of_mem he)).equal_eq (hfixed k List.mem_cons_self).plain
  rw [eval, bind_of_ok hcontainer, bind_of_ok hkey, lookupValue_eq henv hfuel hs hfixed, hequal]

end Histories

/-- How a lookup ends: with the value it finds; with an error if there is none and the key has a
text; and not at all if the key has none because it contains itself. -/
theorem lookupResult_cases {s : State} {a : Address} {k : Value} {found : Option Value} :
    (∀ w, found = some w → lookupResult s a k found = .ok w s) ∧
    ((∃ text, lookupResult s a k found = .error (.fault (.missingKey text)) s) ↔
      found = none ∧ ¬s.heap.ContainsItself k) ∧
    (lookupResult s a k found = .error (.endless a k) s ↔
      found = none ∧ s.heap.ContainsItself k) := by
  cases found with
  | some w => exact ⟨fun _ heq => by cases heq; rfl, by simp [lookupResult], by simp [lookupResult]⟩
  | none =>
    rw [← text?_eq_none_iff]
    unfold lookupResult
    cases text? s.heap k <;> simp

/-- Sets and maps are sets and finite maps of values that are plain and not modified in between.

A set that came about by additions holds the first of each class, further values can be added, and
it contains what is equal to one of its values. A map that came about by assignments holds the first
key of each class, further keys can be assigned, and a lookup gives what came last for an equal key.
Without an equal key it gives up, unless the key contains itself. Literals come to sets and maps of
this kind. -/
theorem collections_refine {p : Program} {h : Heap} {fuel : Nat} (hfuel : h.size < fuel) :
    (∀ {a vs s}, SetHistory p h (.ofFuel p fuel) a vs s → HoldsSet p h vs (s.heap.set a) ∧
      (∀ v, (∀ u ∈ v :: vs, h.Fixed p s.heap u) →
        ∃ t, addToSet (.ofFuel p fuel) (.set a) v s = .ok () t ∧
          SetHistory p h (.ofFuel p fuel) a (vs ++ [v]) t) ∧
      ∀ {set value x s0 t},
        eval (.ofFuel p fuel) set s0 = .ok (.set a) s → eval (.ofFuel p fuel) value s = .ok x t →
        (∀ u ∈ x :: vs, h.Fixed p t.heap u) →
        eval (.ofFuel p fuel) (.contains set value) s0 =
          .ok (.bool (vs.any fun v => h.equal p v x)) t) ∧
    (∀ s {items vs},
      SetItems p h (.ofFuel p fuel) s.heap.sets.size items vs
        { s with heap := (s.heap.newSet #[]).2 } →
      ∀ item, ∃ t, eval (.ofFuel p fuel) (.set items item) s = .ok (.set s.heap.sets.size) t ∧
        SetHistory p h (.ofFuel p fuel) s.heap.sets.size vs t) ∧
    (∀ {a pairs s},
      MapHistory p h (.ofFuel p fuel) a pairs s →
      HoldsMap p h pairs (s.heap.map a) ∧
      (∀ k w, (∀ u ∈ k :: pairs.map (·.1), h.Fixed p s.heap u) →
        ∃ t, assignElement (.ofFuel p fuel) (.map a) k w s = .ok () t ∧
          MapHistory p h (.ofFuel p fuel) a (pairs ++ [(k, w)]) t) ∧
      ∀ {container key output k s0 s1},
        eval (.ofFuel p fuel) container s0 = .ok (.map a) s1 →
        eval (.ofFuel p fuel) key s1 = .ok k s →
        (∀ u ∈ k :: pairs.map (·.1), h.Fixed p s.heap u) →
        (∀ w, lastFor (h.equal p) pairs k = some w →
          eval (.ofFuel p fuel) (.lookup container key .map output) s0 = .ok w s) ∧
        ((∃ text, eval (.ofFuel p fuel) (.lookup container key .map output) s0 =
            .error (.fault (.missingKey text)) s) ↔
          (∀ e ∈ pairs, h.equal p e.1 k = false) ∧ ¬s.heap.ContainsItself k) ∧
        (eval (.ofFuel p fuel) (.lookup container key .map output) s0 = .error (.endless a k) s ↔
          (∀ e ∈ pairs, h.equal p e.1 k = false) ∧ s.heap.ContainsItself k)) ∧
    (∀ s {entries pairs},
      MapItems p h (.ofFuel p fuel) s.heap.maps.size entries pairs
        { s with heap := (s.heap.newMap #[]).2 } →
      ∀ key value, ∃ t,
        eval (.ofFuel p fuel) (.map entries key value) s = .ok (.map s.heap.maps.size) t ∧
        MapHistory p h (.ofFuel p fuel) s.heap.maps.size pairs t) := by
  have henv : (Env.ofFuel p fuel).program = p := rfl
  refine ⟨fun hs => ⟨hs.holds henv hfuel, fun v hfixed => hs.exists_add henv hfuel hfixed,
      fun hset hvalue hfixed => hs.contains henv hfuel hset hvalue hfixed⟩,
    fun s _ _ => setLiteral_history henv hfuel,
    fun hs => ⟨hs.holds henv hfuel, fun k w hfixed => hs.exists_assign henv hfuel hfixed w,
      fun hcontainer hkey hfixed => ?_⟩,
    fun s _ _ => mapLiteral_history henv hfuel⟩
  rw [hs.lookup henv hfuel hcontainer hkey hfixed, ← lastFor_eq_none_iff]
  exact lookupResult_cases

/-! ## Samples -/

instance (h h' : Heap) : DecidablePred (h.SameAt h')
  | .list a => inferInstanceAs (Decidable (h'.list a = h.list a))
  | .set a => inferInstanceAs (Decidable (h'.set a = h.set a))
  | .map a => inferInstanceAs (Decidable (h'.map a = h.map a))
  | .object a => inferInstanceAs (Decidable (h'.fields a = h.fields a))

theorem Heap.fixed_of_everyWithin {p : Program} {h h' : Heap} {depth : Nat} {v : Value}
    (hregular : h.everyWithin (fun u => decide (h.Regular p u)) depth v = true)
    (hsame : h.everyWithin (fun u => decide (∀ c ∈ u.cell?, h.containers.SameAt h'.containers c))
      depth v = true) : h.Fixed p h' v :=
  ⟨plain_of_everyWithin hregular, fun _ c hu hc =>
    of_decide_eq_true (everyWithin.test hsame hu) c hc⟩

/-- A list of one number. -/
def single (n : Int64) : Expr :=
  .list [.int n] .int

def singleSet : Expr :=
  .set [single 1, single 2, single 1] (.list .int)

def singleMap : Expr :=
  .map [(single 1, .string "a"), (single 2, .string "b"), (single 1, .string "c")]
    (.list .int) .string

/-- Lists that are equal to one another and one that is not. -/
def singleHeap : Heap where
  lists := #[#[.int 1], #[.int 2], #[.int 1], #[.int 1]]

/-- The values that the samples put into sets and maps or look for. -/
theorem singleHeap_fixed {heap : Heap} {vs : List Value}
    (hregular : ∀ v ∈ vs, singleHeap.everyWithin
      (fun u => decide (singleHeap.Regular boxProgram u)) 2 v = true)
    (hsame : ∀ v ∈ vs, singleHeap.everyWithin (fun u => decide (∀ c ∈ u.cell?,
      singleHeap.containers.SameAt heap.containers c)) 2 v = true) :
    ∀ v ∈ vs, singleHeap.Fixed boxProgram heap v :=
  fun v hv => Heap.fixed_of_everyWithin (hregular v hv) (hsame v hv)

theorem singleSet_items : SetItems boxProgram singleHeap (.ofFuel boxProgram 9) 0
    [single 1, single 2, single 1] [.list 0, .list 1, .list 2]
    { heap := (Heap.newSet {} #[]).2 } := by
  iterate 3
    refine ⟨_, rfl, ⟨rfl, singleHeap_fixed (by decide +kernel) (by decide +kernel)⟩,
      fun t ht => ?_⟩
    cases ht
  trivial

theorem singleMap_items : MapItems boxProgram singleHeap (.ofFuel boxProgram 9) 0
    [(single 1, .string "a"), (single 2, .string "b"), (single 1, .string "c")]
    [(.list 0, .string "a"), (.list 1, .string "b"), (.list 2, .string "c")]
    { heap := (Heap.newMap {} #[]).2 } := by
  iterate 3
    refine ⟨_, rfl, ⟨rfl, singleHeap_fixed (by decide +kernel) (by decide +kernel)⟩,
      fun t ht => ?_⟩
    cases ht
  trivial

/-- The state in which the key of the sample is looked up. -/
def lookupState : State where
  heap := { singleHeap with maps := #[#[(.list 0, .string "c"), (.list 1, .string "b")]] }

theorem singles_refine :
    (∃ t, eval (.ofFuel boxProgram 9) singleSet {} = .ok (.set 0) t ∧
      HoldsSet boxProgram singleHeap [.list 0, .list 1, .list 2] (t.heap.set 0) ∧
      ∃ t', eval (.ofFuel boxProgram 9) (.contains singleSet (single 1)) {} =
        .ok (.bool true) t') ∧
    ∃ t, eval (.ofFuel boxProgram 9) singleMap {} = .ok (.map 0) t ∧
      HoldsMap boxProgram singleHeap
        [(.list 0, .string "a"), (.list 1, .string "b"), (.list 2, .string "c")] (t.heap.map 0) ∧
      (∃ t', eval (.ofFuel boxProgram 9) (.lookup singleMap (single 1) .map .string) {} =
        .ok (.string "c") t') ∧
      ∃ text t', eval (.ofFuel boxProgram 9)
        (.lookup singleMap (.null (.list .int)) .map .string) {} =
          .error (.fault (.missingKey text)) t' := by
  have hfuel : singleHeap.size < 9 := by decide
  obtain ⟨hset, hsetLiteral, hmap, hmapLiteral⟩ := collections_refine (p := boxProgram) hfuel
  constructor
  · obtain ⟨t, ht, hhistory⟩ := hsetLiteral {} singleSet_items (.list .int)
    obtain ⟨hholds, _, hcontains⟩ := hset hhistory
    refine ⟨t, ht, hholds, ?_⟩
    have heval : eval (.ofFuel boxProgram 9) singleSet {} = .ok (.set 0) t := ht
    cases ht
    exact ⟨_, hcontains heval (show eval _ (single 1) _ = .ok (.list 3) _ from rfl)
      (singleHeap_fixed (by decide +kernel) (by decide +kernel))⟩
  · obtain ⟨t, ht, hhistory⟩ := hmapLiteral {} singleMap_items (.list .int) .string
    have heval : eval (.ofFuel boxProgram 9) singleMap {} = .ok (.map 0) t := ht
    refine ⟨t, ht, (hmap hhistory).1, ?_, ?_⟩
    · have hkey : eval (.ofFuel boxProgram 9) (single 1) t = .ok (.list 3) lookupState := by
        cases ht
        rfl
      have hmaps : lookupState.heap.maps[0]? = t.heap.maps[0]? := by
        cases ht
        rfl
      obtain ⟨hfound, _⟩ := (hmap (hhistory.later hmaps)).2.2 heval hkey
        (singleHeap_fixed (by decide +kernel) (by decide +kernel))
      exact ⟨_, hfound (.string "c") (by decide +kernel)⟩
    · cases ht
      obtain ⟨_, hmissing, _⟩ := (hmap hhistory).2.2 heval
        (show eval (.ofFuel boxProgram 9) (.null (.list .int)) _ = .ok .null _ from rfl)
        (singleHeap_fixed (by decide +kernel) (by decide +kernel))
      obtain ⟨text, htext⟩ := hmissing.mpr ⟨by decide +kernel, by rintro ⟨c, d, ⟨⟩, _⟩⟩
      exact ⟨text, _, htext⟩

/-- A function that looks for a node which refers to itself, in a map with another node. -/
def nodeModule : Syntax.Module where
  name := "Nodes"
  constants := []
  functions := [
    { name := "find"
      parameters := []
      returnType := .int
      body := [
        .declare "node" (.new "Node"),
        .assign (.property (.var "node") "next") (.var "node"),
        .declare "other" (.new "Node"),
        .declare "sizes" (.map [(.var "other", .int 1)]),
        .ret (some (.lookup (.var "sizes") (.var "node")))] }]
  models := [
    { name := "Node"
      fields := [⟨"next", .model "Node"⟩]
      methods := []
      equality := none
      hashing := none }]

/-- The program of `nodeModule`. -/
def nodeProgram : Program where
  name := "Nodes"
  functions := #[{
    name := "find"
    parameters := []
    returnType := .int
    owner := none
    body := [
      .declare ⟨0⟩ (.new ⟨0⟩),
      .assign (.property (.var (.binding ⟨0⟩) (.model ⟨0⟩)) ⟨⟨0⟩, 0⟩ (.model ⟨0⟩))
        (.var (.binding ⟨0⟩) (.model ⟨0⟩)),
      .declare ⟨1⟩ (.new ⟨0⟩),
      .declare ⟨2⟩ (.map [(.var (.binding ⟨1⟩) (.model ⟨0⟩), .int 1)] (.model ⟨0⟩) .int),
      .ret (some (.lookup (.var (.binding ⟨2⟩) (.map (.model ⟨0⟩) .int))
        (.var (.binding ⟨0⟩) (.model ⟨0⟩)) .map .int)) (.function ⟨0⟩)] }]
  models := #[{ name := "Node", fields := [⟨"next", .model ⟨0⟩⟩], fieldMap := [("next", 0)] }]
  locals := #[⟨"node", .model ⟨0⟩, .declared⟩, ⟨"other", .model ⟨0⟩, .declared⟩,
    ⟨"sizes", .map (.model ⟨0⟩) .int, .declared⟩]
  functionMap := [("find", ⟨0⟩)]
  modelMap := [("Node", ⟨0⟩)]

/-- The storage in which the lookup is made. -/
def nodeHeap : Heap where
  maps := #[#[(.object ⟨0⟩ 1, .int 1)]]
  objects := #[⟨"Node", #[.object ⟨0⟩ 0]⟩, ⟨"Node", #[.null]⟩]

/-- No key of the map is equal to the node, and both are plain. But the lookup does not fail: it has
no end. -/
theorem find_never_ends : lower nodeModule none = .ok nodeProgram ∧
    nodeHeap.Plain nodeProgram (.object ⟨0⟩ 0) ∧ nodeHeap.Plain nodeProgram (.object ⟨0⟩ 1) ∧
    nodeHeap.equal nodeProgram (.object ⟨0⟩ 1) (.object ⟨0⟩ 0) = false ∧
    ∀ fuel, 1 < fuel → ∃ s, run nodeProgram fuel "find" [] {} =
      .error (.endless 0 (.object ⟨0⟩ 0)) s ∧ s.heap = nodeHeap := by
  have hplain : ∀ v ∈ [Value.object ⟨0⟩ 0, .object ⟨0⟩ 1], nodeHeap.everyWithin
      (fun u => decide (nodeHeap.Regular nodeProgram u)) 1 v = true := by decide +kernel
  refine ⟨by cbv, Heap.plain_of_everyWithin (hplain _ (by simp)),
    Heap.plain_of_everyWithin (hplain _ (by simp)), by decide +kernel, fun fuel hfuel => ?_⟩
  -- one unit of fuel goes to the call, and one to the comparison
  obtain ⟨n, rfl⟩ : ∃ n, fuel = n + 2 := ⟨fuel - 2, by omega⟩
  exact ⟨_, by cbv, rfl⟩

end Scribe.Machine
