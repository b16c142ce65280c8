import Scribe.Proofs.Cells
import Scribe.Proofs.Evolution
import Scribe.Proofs.Inversion
import Scribe.Proofs.Reach

/-!
# Slots of maps stay valid

A map is searched on the entries that it had when the search began, and the search runs the equality
of models, which may do anything, also to the map itself. Whatever it does, sets and the keys of maps
are only added to (`Heap.Grown`). That holds of every step of the machine and so of all that it does,
however it ends (`State.grown_evolution`). So the slot that a search has found holds the same key in
the map as it is then, and the value that is written goes there (`slots_stay_valid`).
-/

namespace Scribe.Machine

open Scribe.Core
open Scribe.Lowering.Step (bind_of_ok)

/-! ## Cells that are only added to -/

/-- Every cell is still there, and what is seen of it has only been added to. -/
def Continues {α β : Type} (view : α → List β) (cells cells' : Array α) : Prop :=
  ∀ (a : Nat) c, cells[a]? = some c → ∃ c', cells'[a]? = some c' ∧ view c <+: view c'

namespace Continues

variable {α β : Type} {view : α → List β} {cells cells' cells'' : Array α}

theorem refl (cells : Array α) : Continues view cells cells :=
  fun _ c hc => ⟨c, hc, List.prefix_refl _⟩

theorem trans (h1 : Continues view cells cells') (h2 : Continues view cells' cells'') :
    Continues view cells cells'' := by
  intro a c hc
  obtain ⟨c', hc', hprefix⟩ := h1 a c hc
  obtain ⟨c'', hc'', hprefix'⟩ := h2 a c' hc'
  exact ⟨c'', hc'', hprefix.trans hprefix'⟩

theorem push (cells : Array α) (c : α) : Continues view cells (cells.push c) :=
  fun _ c' hc' => ⟨c', getElem?_push_of_some hc' c, List.prefix_refl _⟩

theorem modify (cells : Array α) (a : Address) {f : α → α} (hf : ∀ c, view c <+: view (f c)) :
    Continues view cells (cells.modify a f) := by
  intro b c hc
  rw [Array.getElem?_modify, hc]
  split
  · exact ⟨f c, rfl, hf c⟩
  · exact ⟨c, rfl, List.prefix_refl _⟩

end Continues

/-- The keys of a map, in their slots. -/
def keysOf (entries : Array (Value × Value)) : List Value :=
  entries.toList.map (·.1)

/-- An entry that gets another value keeps its key. -/
theorem keysOf_modify (entries : Array (Value × Value)) (i : Nat) (v : Value) :
    keysOf (entries.modify i fun entry => (entry.1, v)) = keysOf entries := by
  refine List.ext_getElem? fun j => ?_
  simp only [keysOf, List.getElem?_map, Array.getElem?_toList, Array.getElem?_modify]
  split
  · rw [Option.map_map]
    rfl
  · rfl

/-- Storage in which sets and the keys of maps have only been added to. -/
structure Heap.Grown (h h' : Heap) : Prop where
  sets : Continues Array.toList h.sets h'.sets
  maps : Continues keysOf h.maps h'.maps

namespace Heap.Grown

variable {h h' h'' : Heap}

theorem refl (h : Heap) : h.Grown h :=
  ⟨.refl _, .refl _⟩

theorem trans (h1 : h.Grown h') (h2 : h'.Grown h'') : h.Grown h'' :=
  ⟨h1.sets.trans h2.sets, h1.maps.trans h2.maps⟩

theorem write {c : Cell} {f : Heap → Heap} (hf : Write c f) (h : Heap) : h.Grown (f h) := by
  cases hf with
  | pushItem a v | popItem a | setItem a i v | setField a i v => exact ⟨.refl _, .refl _⟩
  | pushElement a v => exact ⟨.modify _ a fun items => by simp, .refl _⟩
  | pushEntry a key v => exact ⟨.refl _, .modify _ a fun entries => by simp [keysOf]⟩
  | setEntry a i v => exact ⟨.refl _, .modify _ a fun entries => by simp [keysOf_modify]⟩

theorem accrues : Accrues Heap.Grown where
  refl := refl
  trans := trans
  newList _ _ := ⟨.refl _, .refl _⟩
  newSet _ _ := ⟨.push _ _, .refl _⟩
  newMap _ _ := ⟨.refl _, .push _ _⟩
  newObject _ _ _ := ⟨.refl _, .refl _⟩

/-- A key stays in its slot. -/
theorem getElem?_map (hgrown : h.Grown h') {a : Address} {slot : Nat} {key old : Value}
    (hslot : (h.map a)[slot]? = some (key, old)) :
    ∃ current, (h'.map a)[slot]? = some (key, current) := by
  unfold Heap.map at hslot ⊢
  cases hentries : h.maps[a]? with
  | none => simp [hentries] at hslot
  | some entries =>
    obtain ⟨entries', hentries', rest, hrest⟩ := hgrown.maps a entries hentries
    rw [hentries, Option.getD_some] at hslot
    have hkey : (keysOf entries)[slot]? = some key := by simp [keysOf, hslot]
    obtain ⟨hlt, _⟩ := List.getElem?_eq_some_iff.mp hkey
    rw [← List.getElem?_append_left hlt, hrest] at hkey
    rw [hentries', Option.getD_some]
    simpa [keysOf] using hkey

end Heap.Grown

/-- Sets and the keys of maps have only been added to. -/
def State.Grown (s t : State) : Prop :=
  s.heap.Grown t.heap

theorem State.grown_evolution : Evolution State.Grown where
  refl s := .refl s.heap
  trans h1 h2 := h1.trans h2
  change hf s := .write hf s.heap
  alloc hf s := Heap.Grown.accrues.allocation hf s.heap
  frames s _ := .refl s.heap

/-! ## Searches -/

/-- A search that finds a position has compared the item there at last. -/
theorem positionFrom_eq_some {eq : Value → Value → Exec Bool} {value : Value} {index slot : Nat}
    {items : List Value} {s s1 : State}
    (h : positionFrom eq value index items s = .ok (some slot) s1) :
    ∃ i item s', slot = index + i ∧ items[i]? = some item ∧ eq item value s' = .ok true s1 := by
  induction items generalizing index s with
  | nil => cases h
  | cons item rest ih =>
    obtain ⟨equal, s', hitem, h⟩ := Lowering.Step.bind_eq_ok.mp h
    cases equal with
    | true =>
      cases h
      exact ⟨0, item, s, rfl, rfl, hitem⟩
    | false =>
      obtain ⟨i, found, s'', rfl, hfound, heq⟩ := ih h
      exact ⟨i + 1, found, s'', by omega, hfound, heq⟩

/-- A slot that is written has its key and the new value. -/
theorem Heap.getElem?_setEntry {h : Heap} {a : Address} {slot : Nat} {key current : Value}
    (hslot : (h.map a)[slot]? = some (key, current)) (v : Value) :
    ((h.setEntry a slot v).map a)[slot]? = some (key, v) := by
  unfold Heap.map at hslot
  cases hentries : h.maps[a]? with
  | none => simp [hentries] at hslot
  | some entries =>
    rw [hentries, Option.getD_some] at hslot
    simp [Heap.map, Heap.setEntry, Array.getElem?_modify, hentries, hslot]

/-- All that the machine does, of whatever program and however it ends, only adds to sets and to the
keys of maps. So the slot that the search of an assignment finds lies in the map as it is after the
search, with the key that was found equal, and the assignment gives that slot its value. -/
theorem slots_stay_valid (p : Program) (fuel : Nat) :
    (∀ e, Leads State.Grown Value (eval (.ofFuel p fuel) e)) ∧
    (∀ t, Leads State.Grown Flow (exec (.ofFuel p fuel) t)) ∧
    (∀ block, Leads State.Grown Flow (execBlock (.ofFuel p fuel) block)) ∧
    (∀ entry arguments, Leads State.Grown Value (run p fuel entry arguments)) ∧
    (∀ left right, Leads State.Grown Bool ((Env.ofFuel p fuel).equal left right)) ∧
    (∀ depth v, Leads State.Grown Int64 (hashValue (.ofFuel p fuel) depth v)) ∧
    ∀ a key v s slot s1,
      findKey (Env.ofFuel p fuel).equal (s.heap.map a).toList key s = .ok (some slot) s1 →
      ∃ found old current, (s.heap.map a)[slot]? = some (found, old) ∧
        (∃ s', (Env.ofFuel p fuel).equal found key s' = .ok true s1) ∧
        (s1.heap.map a)[slot]? = some (found, current) ∧
        putEntry (.ofFuel p fuel) a key v s =
          .ok () { s1 with heap := s1.heap.setEntry a slot v } ∧
        ((s1.heap.setEntry a slot v).map a)[slot]? = some (found, v) := by
  have h := State.grown_evolution
  have hcalls := h.calls p fuel
  have hequal : ∀ left right, Leads State.Grown Bool ((Env.ofFuel p fuel).equal left right) :=
    h.searching.valuesEqual hcalls _
  refine ⟨h.closed.eval hcalls, h.closed.coupled.exec hcalls.pairs, h.closed.execBlock hcalls,
    h.run (fun s _ => .refl s.heap) p fuel, hequal, h.searching.hashValue hcalls, ?_⟩
  intro a key v s slot s1 hfind
  have hgrown : s.heap.Grown s1.heap := by
    have hs := h.searching.findKey hequal (s.heap.map a).toList key s
    rwa [hfind] at hs
  obtain ⟨i, found, s', rfl, hitem, hfound⟩ := positionFrom_eq_some hfind
  rw [Nat.zero_add] at hfind ⊢
  obtain ⟨⟨_, old⟩, hold, rfl⟩ : ∃ entry, (s.heap.map a)[i]? = some entry ∧ entry.1 = found := by
    simpa using hitem
  obtain ⟨current, hcurrent⟩ := hgrown.getElem?_map hold
  refine ⟨_, old, current, hold, ⟨s', hfound⟩, hcurrent, ?_, Heap.getElem?_setEntry hcurrent v⟩
  unfold putEntry
  rw [bind_of_ok (show Exec.look (·.map a) s = .ok (s.heap.map a) s from rfl), bind_of_ok hfind]
  rfl

/-- Tags that are all equal, and whose equality puts an entry into the map of sizes. -/
def tagProgram : Program where
  name := "Tags"
  constants := #[{
    name := "sizes"
    value := .emptyMap (.model ⟨0⟩) (.primitive .int)
    type := .map (.model ⟨0⟩) (.primitive .int) }]
  models := #[{
    name := "Tag"
    equality := some ⟨⟨0⟩, [
      .assign (.lookup (.var (.constant ⟨0⟩) (.map (.model ⟨0⟩) (.primitive .int)))
        (.null (.model ⟨0⟩)) .map (.primitive .int)) (.int 1),
      .ret (some (.bool true)) (.equality ⟨0⟩)]⟩ }]
  locals := #[⟨"other", .model ⟨0⟩, .overrideOther⟩]
  constantMap := [("sizes", ⟨0⟩)]
  modelMap := [("Tag", ⟨0⟩)]

/-- Two tags, one of which is a key of the map of sizes. -/
def tagState : State where
  heap := { maps := #[#[(.object ⟨0⟩ 0, .int 5)]], objects := #[⟨"Tag", #[]⟩, ⟨"Tag", #[]⟩] }
  constants := [(⟨0⟩, .map 0)]

/-- The state after the search: the map that is searched has another entry. -/
def taggedState : State where
  heap := { maps := #[#[(.object ⟨0⟩ 0, .int 5), (.null, .int 1)]],
            objects := #[⟨"Tag", #[]⟩, ⟨"Tag", #[]⟩] }
  constants := [(⟨0⟩, .map 0)]

theorem tagSlot_stays_valid :
    findKey (Env.ofFuel tagProgram 9).equal (tagState.heap.map 0).toList (.object ⟨0⟩ 1) tagState =
      .ok (some 0) taggedState ∧
    ∃ found old current, (tagState.heap.map 0)[0]? = some (found, old) ∧
      (∃ s', (Env.ofFuel tagProgram 9).equal found (.object ⟨0⟩ 1) s' = .ok true taggedState) ∧
      (taggedState.heap.map 0)[0]? = some (found, current) ∧
      putEntry (.ofFuel tagProgram 9) 0 (.object ⟨0⟩ 1) (.int 6) tagState =
        .ok () { taggedState with heap := taggedState.heap.setEntry 0 0 (.int 6) } ∧
      ((taggedState.heap.setEntry 0 0 (.int 6)).map 0)[0]? = some (found, .int 6) := by
  have hfind : findKey (Env.ofFuel tagProgram 9).equal (tagState.heap.map 0).toList (.object ⟨0⟩ 1)
      tagState = .ok (some 0) taggedState := rfl
  obtain ⟨_, _, _, _, _, _, hslot⟩ := slots_stay_valid tagProgram 9
  exact ⟨hfind, hslot 0 (.object ⟨0⟩ 1) (.int 6) tagState 0 taggedState hfind⟩

end Scribe.Machine
