import Scribe.Proofs.Fuel
import Scribe.Proofs.Halting
import Scribe.Proofs.Sessions

/-!
# Runs that come to their end

Programs without `for`, without recursion and without overrides come to the end of their runs
whatever they do to containers and however cyclic their instances become, with one exception
(`run_ends_unless_key_cyclic`): a run that comes to a lookup in a map whose key is missing and
contains itself has no end (`seek_never_ends`). Comparisons and hashes always come to their end, on
cyclic instances too (`comparisons_end_within_nesting`).
-/

namespace Scribe.Machine

open Scribe.Core
open Scribe.Lowering

/-- Whatever a machine has read and whatever calls it has served, the next call comes to its end with
a value or a fault if the program has no `for`, no recursion and no overrides: from some amount of
fuel on its result is always the same. The only calls without an end are those that come to a lookup
in a map, and then the key that is looked up is missing in this map and contains itself. -/
theorem run_ends_unless_key_cyclic {m : Syntax.Module} {limit : Option Nat} {p : Program}
    (h : lower m limit = .ok p) (hfor : p.NoFor) (hno : p.NoOverrides) (hcalls : p.NoRecursion)
    {s : State} {old new : List Given} (hs : Session p s old new) (c : Call p (old ++ new)) :
    ∃ n result, (∀ fuel, n ≤ fuel → (c.withFuel fuel).run s = result) ∧
      ((∃ v s', result = .ok v s') ∨ (∃ f s', result = .error (.fault f) s') ∨
        ∃ map key s', result = .error (.endless map key) s' ∧ Unanswered p map key s'.heap) := by
  have hsound := lower_sound h
  obtain ⟨τ, hτ⟩ := hs.serving hsound
  -- enough fuel for the constants and for the function
  obtain ⟨n, hvalues, hfunction⟩ := ((constants_eventually hno hsound).and
    (functionSafe_eventually hno hsound hfor hcalls c.id)).exists
  have hends : Ends (fun i : { fuel // n ≤ fuel } => (c.withFuel i.val).run) s _ _ :=
    c.run_ends hsound hvalues hfunction (fun _ => rfl) hτ.resting hτ.typed
  cases hends with
  | @ok v s' hrun _ => exact ⟨n, .ok v s', fun fuel hfuel => hrun ⟨fuel, hfuel⟩, .inl ⟨v, s', rfl⟩⟩
  | @error stop s' hrun hstop =>
    refine ⟨n, .error stop s', fun fuel hfuel => hrun ⟨fuel, hfuel⟩, .inr ?_⟩
    by_cases hfault : ∃ f, stop = .fault f
    · obtain ⟨f, rfl⟩ := hfault
      exact .inl ⟨f, s', rfl⟩
    · obtain ⟨⟨_, hunfinished⟩ | ⟨f, hf, _⟩, _⟩ := hstop
      · obtain ⟨map, key, rfl, hunanswered⟩ := hunfinished fun f hf => hfault ⟨f, hf⟩
        exact .inr ⟨map, key, s', rfl, hunanswered⟩
      · exact (hfault ⟨f, hf⟩).elim

theorem noFor_of_functions {p : Program} (hno : p.NoOverrides)
    (h : ∀ f ∈ p.functions.toList, ∀ s ∈ f.body, s.All fun s => s.isFor = false) : p.NoFor := by
  intro callable body hbody
  cases callable with
  | function id =>
    obtain ⟨f, hf, rfl⟩ := Option.map_eq_some_iff.mp hbody
    exact h f (Array.mem_toList_iff.mpr (Array.mem_of_getElem? hf))
  | equality id =>
    obtain ⟨e, he, _⟩ := Option.map_eq_some_iff.mp hbody
    obtain ⟨m, hm, he⟩ := Option.bind_eq_some_iff.mp he
    rw [(hno id m hm).1] at he
    cases he
  | hashing id =>
    obtain ⟨m, hm, hbody⟩ := Option.bind_eq_some_iff.mp hbody
    rw [(hno id m hm).2] at hbody
    cases hbody

/-! ## A sample -/

/-- Functions that work on an instance which refers to itself. -/
def ringModule : Syntax.Module where
  name := "Rings"
  constants := []
  functions := [
    { name := "grow"
      parameters := []
      returnType := .int
      body := [
        .declare "node" (.new "Node"),
        .assign (.property (.var "node") "next") (.var "node"),
        .declare "nodes" (.list [.var "node"]),
        .forEach "item" (.var "nodes") [.push (.var "nodes") (.property (.var "item") "next")],
        .ret (some (.call (.function "twice") [.length (.var "nodes")]))] },
    { name := "twice"
      parameters := [⟨"size", .int⟩]
      returnType := .int
      body := [.ret (some (.binary .add (.var "size") (.var "size")))] },
    { name := "seek"
      parameters := []
      returnType := .int
      body := [
        .declare "node" (.new "Node"),
        .assign (.property (.var "node") "next") (.var "node"),
        .declare "sizes" (.emptyMap (.model "Node") .int),
        .ret (some (.lookup (.var "sizes") (.var "node")))] }]
  models := [
    { name := "Node"
      fields := [⟨"next", .model "Node"⟩]
      methods := []
      equality := none
      hashing := none }]

/-- A node that a local refers to. -/
def ringNode (i : Nat) : Expr :=
  .var (.binding ⟨i⟩) (.model ⟨0⟩)

/-- The list of `grow`. -/
def ringNodes : Expr :=
  .var (.binding ⟨1⟩) (.list (.model ⟨0⟩))

def growBody : Block := [
  .declare ⟨0⟩ (.new ⟨0⟩),
  .assign (.property (ringNode 0) ⟨⟨0⟩, 0⟩ (.model ⟨0⟩)) (ringNode 0),
  .declare ⟨1⟩ (.list [ringNode 0] (.model ⟨0⟩)),
  .forEach ⟨2⟩ ringNodes .list (.model ⟨0⟩) [
    .push ringNodes (.property (ringNode 2) ⟨⟨0⟩, 0⟩ (.model ⟨0⟩))],
  .ret (some (.call none [.length ringNodes .list] ⟨1⟩ .int)) (.function ⟨0⟩)]

def twiceBody : Block := [
  .ret (some (.binary .add (.var (.argument ⟨1⟩ 0) .int) (.var (.argument ⟨1⟩ 0) .int) .int))
    (.function ⟨1⟩)]

def seekBody : Block := [
  .declare ⟨3⟩ (.new ⟨0⟩),
  .assign (.property (ringNode 3) ⟨⟨0⟩, 0⟩ (.model ⟨0⟩)) (ringNode 3),
  .declare ⟨4⟩ (.emptyMap (.model ⟨0⟩) .int),
  .ret (some (.lookup (.var (.binding ⟨4⟩) (.map (.model ⟨0⟩) .int)) (ringNode 3) .map .int))
    (.function ⟨2⟩)]

/-- The program of `ringModule`. -/
def ringProgram : Program where
  name := "Rings"
  functions := #[
    { name := "grow", parameters := [], returnType := .int, owner := none, body := growBody },
    { name := "twice", parameters := [⟨"size", .int⟩], returnType := .int, owner := none,
      body := twiceBody },
    { name := "seek", parameters := [], returnType := .int, owner := none, body := seekBody }]
  models := #[{ name := "Node", fields := [⟨"next", .model ⟨0⟩⟩], fieldMap := [("next", 0)] }]
  locals := #[
    ⟨"node", .model ⟨0⟩, .declared⟩, ⟨"nodes", .list (.model ⟨0⟩), .declared⟩,
    ⟨"item", .model ⟨0⟩, .forEachItem⟩, ⟨"node", .model ⟨0⟩, .declared⟩,
    ⟨"sizes", .map (.model ⟨0⟩) .int, .declared⟩]
  functionMap := [("grow", ⟨0⟩), ("twice", ⟨1⟩), ("seek", ⟨2⟩)]
  modelMap := [("Node", ⟨0⟩)]

theorem lower_ringModule : lower ringModule none = .ok ringProgram := by
  cbv

theorem ringProgram_noOverrides : ringProgram.NoOverrides := by
  intro id m hm
  obtain rfl := List.mem_singleton.mp (Array.mem_toList_iff.mpr (Array.mem_of_getElem? hm))
  exact ⟨rfl, rfl⟩

theorem ringProgram_noRecursion : ringProgram.NoRecursion :=
  Program.noRecursion_of_later (by decide)

theorem ringProgram_noFor : ringProgram.NoFor := by
  refine noFor_of_functions ringProgram_noOverrides ?_
  simp only [ringProgram, List.forall_mem_cons]
  refine ⟨?_, ?_, ?_, List.forall_mem_nil _⟩
  · show ∀ s ∈ growBody, s.All fun s => s.isFor = false
    simp only [growBody, List.forall_mem_cons]
    exact ⟨.leaf rfl rfl, .leaf rfl rfl, .leaf rfl rfl,
      .intro rfl (List.forall_mem_singleton.mpr (.leaf rfl rfl)), .leaf rfl rfl,
      List.forall_mem_nil _⟩
  · exact List.forall_mem_singleton.mpr (.leaf rfl rfl)
  · show ∀ s ∈ seekBody, s.All fun s => s.isFor = false
    simp only [seekBody, List.forall_mem_cons]
    exact ⟨.leaf rfl rfl, .leaf rfl rfl, .leaf rfl rfl, .leaf rfl rfl, List.forall_mem_nil _⟩

/-- A call of `grow`, which appends to a list while it walks over it. -/
def growCall : Call ringProgram [] where
  entry := "grow"
  id := ⟨0⟩
  function := { name := "grow", parameters := [], returnType := .int, owner := none,
                body := growBody }
  arguments := []
  fuel := 8
  named := by cbv
  found := rfl
  drawn := .nil

theorem growCall_ends : lower ringModule none = .ok ringProgram ∧ ringProgram.NoFor ∧
    ringProgram.NoOverrides ∧ ringProgram.NoRecursion ∧
      ∃ n s, ∀ fuel, n ≤ fuel → (growCall.withFuel fuel).run {} = .ok (.int 4) s := by
  refine ⟨lower_ringModule, ringProgram_noFor, ringProgram_noOverrides, ringProgram_noRecursion, ?_⟩
  obtain ⟨n, result, hn, _⟩ := run_ends_unless_key_cyclic lower_ringModule ringProgram_noFor
    ringProgram_noOverrides ringProgram_noRecursion .start growCall
  have hrun : ∃ s, (growCall.withFuel 8).run {} = .ok (.int 4) s := ⟨_, by cbv⟩
  obtain ⟨s, hrun⟩ := hrun
  -- more fuel changes nothing, so the result with eight units is the one that stays
  have hmore : (growCall.withFuel (max n 8)).run {} = (growCall.withFuel 8).run {} := by
    refine (run_refines ringProgram (Nat.le_max_right n 8) "grow" []).eq fun s' hs' => ?_
    cases hrun.symm.trans hs'
  refine ⟨n, s, fun fuel hfuel => ?_⟩
  rw [hn fuel hfuel, ← hn (max n 8) (Nat.le_max_left n 8), hmore, hrun]

/-- `seek` looks for a node that refers to itself, in a map that is empty. It has no end, although
the program has no `for`, no recursion and no overrides. -/
theorem seek_never_ends : lower ringModule none = .ok ringProgram ∧ ringProgram.NoFor ∧
    ringProgram.NoOverrides ∧ ringProgram.NoRecursion ∧ ∀ fuel, 0 < fuel → ∃ s,
      run ringProgram fuel "seek" [] {} = .error (.endless 0 (.object ⟨0⟩ 0)) s ∧
        s.heap.ContainsItself (.object ⟨0⟩ 0) := by
  refine ⟨lower_ringModule, ringProgram_noFor, ringProgram_noOverrides, ringProgram_noRecursion, ?_⟩
  intro fuel hfuel
  obtain ⟨n, rfl⟩ : ∃ n, fuel = n + 1 := ⟨fuel - 1, by omega⟩
  refine ⟨_, by cbv, .object 0, .object 0, rfl, .refl, .single ⟨.object ⟨0⟩ 0, ?_, rfl⟩⟩
  exact List.mem_cons_self

/-! ## Comparisons of cyclic data -/

/-- Without overrides, values that show the same type, up to null, can be compared and hashed in any
storage: the recursion ends, at most as many levels below its start as containers are nested in the
type, and with more room the answer is the same. Whatever a machine has read and whatever calls it
has served, its storage is typed, so that the values in it and those that were read show their
types. -/
theorem comparisons_end_within_nesting {m : Syntax.Module} {limit : Option Nat} {p : Program}
    (h : lower m limit = .ok p) (hno : p.NoOverrides) :
    (∀ s t a b, s.heap.Shows p a t → s.heap.Shows p b t →
      (∃ answer, ∀ env depth, env.program = p → t.nesting < depth →
        valuesEqual env depth a b s = .ok answer s) ∧
      ∃ hash, ∀ env depth, env.program = p → t.nesting < depth →
        hashValue env depth a s = .ok hash s) ∧
    ∀ s old new, Session p s old new → ∃ τ, HeapTyped p τ s.heap ∧
      ConstantsTyped p τ s.constants ∧ (∀ x ∈ old ++ new, HasType τ x.1 x.2) ∧
      ∀ v t, HasType τ v t → s.heap.Shows p v t := by
  refine ⟨fun s t a b ha hb => ⟨?_, ?_⟩, fun s old new hs => ?_⟩
  · obtain ⟨answer, hanswer⟩ := valuesEqual_decides hno (ha.nests (Nat.lt_succ_self _))
      (hb.nests (Nat.lt_succ_self _))
    exact ⟨answer, fun env depth henv hdepth => hanswer ⟨env, depth, henv, hdepth⟩ s rfl⟩
  · obtain ⟨hash, hhash⟩ := hashValue_decides hno (ha.nests (Nat.lt_succ_self _))
    exact ⟨hash, fun env depth henv hdepth => hhash ⟨env, depth, henv, hdepth⟩ s rfl⟩
  · obtain ⟨τ, hτ⟩ := hs.serving (lower_sound h)
    exact ⟨τ, hτ.resting.heap, hτ.resting.constants, hτ.typed,
      fun v t hv => hv.shows hτ.resting.heap⟩

/-- Storage with a node that refers to itself, and two lists that hold it. -/
def ringHeap : Heap where
  lists := #[#[.object ⟨0⟩ 0, .null], #[.object ⟨0⟩ 0, .null]]
  objects := #[⟨"Node", #[.object ⟨0⟩ 0]⟩]

theorem ringHeap_shows {a : Address} (ha : a < 2) :
    ringHeap.Shows ringProgram (.list a) (.list (.model ⟨0⟩)) := by
  have hlist : ∀ a < 2, (ringHeap.list a).toList = [.object ⟨0⟩ 0, .null] := by decide
  refine .list fun v hv => ?_
  rw [hlist a ha] at hv
  rcases List.mem_pair.mp hv with rfl | rfl
  · exact .object rfl
  · exact .null (by rintro ⟨⟩)

theorem ring_comparisons_end : lower ringModule none = .ok ringProgram ∧ ringProgram.NoOverrides ∧
    (∀ env depth, env.program = ringProgram → 1 < depth →
      valuesEqual env depth (.list 0) (.list 1) { heap := ringHeap } =
        .ok true { heap := ringHeap }) ∧
    ∃ τ, HeapTyped ringProgram τ (finalState (growCall.run {})).heap := by
  obtain ⟨hends, hsessions⟩ :=
    comparisons_end_within_nesting lower_ringModule ringProgram_noOverrides
  refine ⟨lower_ringModule, ringProgram_noOverrides, fun env depth henv hdepth => ?_, ?_⟩
  · obtain ⟨⟨answer, hanswer⟩, _⟩ := hends { heap := ringHeap } _ _ _
      (ringHeap_shows Nat.zero_lt_two) (ringHeap_shows Nat.one_lt_two)
    -- the answer with the least room is the answer with any
    have hleast := hanswer (.ofFuel ringProgram 2) 2 rfl (by decide)
    have htrue : valuesEqual (.ofFuel ringProgram 2) 2 (.list 0) (.list 1) { heap := ringHeap } =
        .ok true { heap := ringHeap } := rfl
    cases htrue.symm.trans hleast
    exact hanswer env depth henv hdepth
  · obtain ⟨τ, hτ, _⟩ := hsessions _ _ _ (.call .start growCall)
    exact ⟨τ, hτ⟩

end Scribe.Machine
