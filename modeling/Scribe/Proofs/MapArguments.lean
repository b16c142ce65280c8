import Scribe.Proofs.Written

/-!
# Maps from JSON objects

The names of an object are texts, and a map reads them at the type of its keys. A map that is read
from an object keeps all members, and a map that is read from an array of pairs keeps one entry for
each key. Both are the same map exactly if no two names of the object are read as the same key
(`read_maps_agree`). So it is for strings, runes and truth values, which have one text each. An
integer has several: a plus and zeros may stand in front of its digits.
-/

namespace Scribe

open Scribe.Core
open Scribe.Lowering (Result.bind_eq_ok)

namespace Datum

/-- A primitive datum as JSON. -/
def literal : Datum → Json
  | .bool b => .bool b
  | .int n => .int n.toInt
  | .rune c => .string (String.singleton c)
  | .string s => .string s
  | _ => .null

/-- A primitive datum as the name of a member. -/
def keyText : Datum → String
  | .bool b => toString b
  | .int n => toString n.toInt
  | .rune c => String.singleton c
  | .string s => s
  | _ => ""

/-- A member of an object as a pair: the key that its name is read as, and its value. -/
def asPair (key : Ty) (member : String × Json) : Json :=
  .array [((ofKey member.1 key).toOption.map literal).getD .null, member.2]

variable {p : Program}

/-! ## Keys -/

/-- The literal of a key is read as the key, and its text is the text that was read unless it is an
integer. -/
theorem literal_of_ofKey {text : String} {key : Ty} {d : Datum} (h : ofKey text key = .ok d) :
    ofJson p d.literal key = .ok d ∧ (key ≠ .int → text = d.keyText) := by
  unfold ofKey at h
  split at h
  · cases h
    exact ⟨rfl, fun _ => rfl⟩
  · split at h
    · next n _ =>
      cases h
      have hn : Json.asInt64? (.number (.int n.toInt)) = some n := Syntax.asInt64?_toInt n
      refine ⟨?_, fun hne => absurd rfl hne⟩
      show ofNumber _ = _
      rw [ofNumber, hn]
    · cases h
  · unfold ofCharacter at h
    split at h
    · next c hc =>
      cases h
      refine ⟨by simp [literal, ofJson, ofCharacter], fun _ => ?_⟩
      rw [← String.ofList_toList (s := text), hc]
      rfl
    · cases h
  · split at h
    · next htext =>
      cases h
      exact ⟨rfl, fun _ => htext⟩
    · split at h
      · next htext =>
        cases h
        exact ⟨rfl, fun _ => htext⟩
      · cases h
  · cases h

/-! ## Entries -/

mutual

theorem same_self : ∀ d : Datum, same d d = true
  | .null => rfl
  | .bool _ | .int _ | .rune _ | .string _ => beq_self_eq_true _
  | .list items | .set items => sameAll_self items
  | .map entries => sameEntries_self entries
  | .object _ _ fields => by simp [same, sameAll_self fields]

theorem sameAll_self : ∀ ds : List Datum, sameAll ds ds = true
  | [] => rfl
  | d :: ds => by rw [sameAll, same_self d, sameAll_self ds, Bool.and_self]

theorem sameEntries_self : ∀ es : List (Datum × Datum), sameEntries es es = true
  | [] => rfl
  | (k, v) :: es => by
    rw [sameEntries, same_self k, same_self v, sameEntries_self es, Bool.and_self, Bool.and_self]

end

variable {entries : List (Datum × Datum)}

theorem map_fst_putEntry {key value : Datum} (h : key ∈ entries.map (·.1)) :
    (putEntry key value entries).map (·.1) = entries.map (·.1) := by
  induction entries with
  | nil => cases h
  | cons entry rest ih =>
    unfold putEntry
    split
    · rfl
    · next hne =>
      rcases List.mem_cons.mp h with rfl | hrest
      · exact absurd (same_self _) hne
      · exact congrArg (entry.1 :: ·) (ih hrest)

/-- A map that is read from pairs has different keys. -/
theorem nodup_entriesOfPairs (pairs : List (Datum × Datum)) :
    ((entriesOfPairs pairs).map (·.1)).Nodup := by
  have hfold (rest entries : List (Datum × Datum)) (h : (entries.map (·.1)).Nodup) :
      ((rest.foldl (fun entries pair => putEntry pair.1 pair.2 entries) entries).map
        (·.1)).Nodup := by
    induction rest generalizing entries with
    | nil => exact h
    | cons pair rest ih =>
      refine ih (putEntry pair.1 pair.2 entries) ?_
      by_cases hmem : pair.1 ∈ entries.map (·.1)
      · rwa [map_fst_putEntry hmem]
      · rw [putEntry_eq_append hmem, List.map_append]
        exact h.append (List.nodup_singleton _) (List.disjoint_singleton.mpr hmem)
  exact hfold pairs [] .nil

/-- The members of an object are read as their pairs are. -/
theorem ofPairs_of_ofEntries {members : List (String × Json)} {key value : Ty}
    (h : ofEntries p members key value = .ok entries) :
    members.map (fun m => ofKey m.1 key) = entries.map (fun e => .ok e.1) ∧
      ofPairs p (members.map (asPair key)) key value = .ok entries := by
  induction members generalizing entries with
  | nil =>
    cases h
    exact ⟨rfl, rfl⟩
  | cons member rest ih =>
    simp only [ofEntries, Result.bind_eq_ok] at h
    obtain ⟨k, hk, v, hv, es, hes, hentries⟩ := h
    cases hentries
    obtain ⟨hkeys, hpairs⟩ := ih hes
    have hpair : asPair key member = .array [k.literal, member.2] := by
      rw [asPair, hk]
      rfl
    rw [List.map_cons, List.map_cons, hk, hkeys, List.map_cons, hpair]
    refine ⟨rfl, ?_⟩
    simp only [ofPairs, (literal_of_ofKey hk).1, hv, hpairs]
    rfl

/-! ## Objects and pairs -/

/-- A map that is read from an object has an entry for each member. The map that is read from the
pairs of the members has different keys, and it is the same map exactly if no two members have the
same key. That is so if all names are the texts of their keys, as they always are where the keys
are no integers. -/
theorem read_maps_agree {key : Primitive} {value : Ty} {members : List (String × Json)}
    (hnames : (members.map (·.1)).Nodup) {d : Datum}
    (h : ofJson p (.object members) (.map (.primitive key) value) = .ok d) :
    ∃ entries, d = .map entries ∧
      members.map (fun m => ofKey m.1 (.primitive key)) = entries.map (fun e => .ok e.1) ∧
      ofJson p (.array (members.map (asPair (.primitive key)))) (.map (.primitive key) value) =
        .ok (.map (entriesOfPairs entries)) ∧
      ((entriesOfPairs entries).map (·.1)).Nodup ∧
      ((entries.map (·.1)).Nodup ↔ entriesOfPairs entries = entries) ∧
      ((entries.map (·.1)).Nodup ↔ ∀ a ∈ members, ∀ b ∈ members,
        ofKey a.1 (.primitive key) = ofKey b.1 (.primitive key) → a = b) ∧
      ((∀ m ∈ members, ∀ k, ofKey m.1 (.primitive key) = .ok k → m.1 = k.keyText) →
        (entries.map (·.1)).Nodup) ∧
      (key ≠ .int → (entries.map (·.1)).Nodup) := by
  obtain ⟨entries, hentries, hd⟩ := Result.bind_eq_ok.mp h
  cases hd
  obtain ⟨hkeys, hpairs⟩ := ofPairs_of_ofEntries hentries
  have hnodup := nodup_entriesOfPairs entries
  have hapart : (entries.map (·.1)).Nodup ↔ ∀ a ∈ members, ∀ b ∈ members,
      ofKey a.1 (.primitive key) = ofKey b.1 (.primitive key) → a = b := by
    have hok : (Except.ok : Datum → Converted Datum).Injective := fun _ _ h => Except.ok.inj h
    rw [← List.nodup_map_iff_inj_on (List.Nodup.of_map _ hnames), hkeys, ← List.nodup_map_iff hok,
      List.map_map]
    rfl
  have htexts (hall : ∀ m ∈ members, ∀ k, ofKey m.1 (.primitive key) = .ok k → m.1 = k.keyText) :
      (entries.map (·.1)).Nodup := by
    refine hapart.mpr fun a ha b hb hab => ?_
    have hmem : ofKey a.1 (.primitive key) ∈ members.map fun m => ofKey m.1 (.primitive key) :=
      List.mem_map_of_mem ha
    rw [hkeys] at hmem
    obtain ⟨e, _, he⟩ := List.mem_map.mp hmem
    refine List.inj_on_of_nodup_map hnames ha hb ?_
    rw [hall a ha e.1 he.symm, hall b hb e.1 (hab.symm.trans he.symm)]
  refine ⟨entries, rfl, hkeys, Result.bind_eq_ok.mpr ⟨entries, hpairs, rfl⟩, hnodup,
    ⟨entriesOfPairs_eq_self, fun heq => heq ▸ hnodup⟩, hapart, htexts, fun hne => ?_⟩
  exact htexts fun m _ k hk =>
    (literal_of_ofKey (p := p) hk).2 fun heq => hne (Ty.primitive.inj heq)

/-! ## A sample -/

/-- Two runes as names. -/
def twoRunes : List (String × Json) := [("a", .int 1), ("b", .int 2)]

theorem twoRunes_agree :
    (twoRunes.map (·.1)).Nodup ∧
    ofJson { name := "Maps" } (.object twoRunes) (.map .rune .int) =
      .ok (.map [(.rune 'a', .int 1), (.rune 'b', .int 2)]) ∧
    ofJson { name := "Maps" } (.array (twoRunes.map (asPair .rune))) (.map .rune .int) =
      .ok (.map [(.rune 'a', .int 1), (.rune 'b', .int 2)]) := by
  have hnames : (twoRunes.map (·.1)).Nodup := by decide
  have hread : ofJson { name := "Maps" } (.object twoRunes) (.map .rune .int) =
      .ok (.map [(.rune 'a', .int 1), (.rune 'b', .int 2)]) := by cbv
  obtain ⟨entries, hentries, _, hpairs, _, hsame, _, _, hrune⟩ := read_maps_agree hnames hread
  cases hentries
  exact ⟨hnames, hread, hpairs.trans (by rw [hsame.mp (hrune (by decide))])⟩

/-- Two names of one key. -/
def twoNames : List (String × Json) := [("+1", .string "plus"), ("1", .string "one")]

/-- A map that is read from an object with two names of one key has that key twice. The map that is
read from the pairs has it once. -/
theorem twoNames_differ : (twoNames.map (·.1)).Nodup ∧
    ofJson { name := "Maps" } (.object twoNames) (.map .int .string) =
      .ok (.map [(.int 1, .string "plus"), (.int 1, .string "one")]) ∧
    ofJson { name := "Maps" } (.array (twoNames.map (asPair .int))) (.map .int .string) =
      .ok (.map [(.int 1, .string "one")]) :=
  ⟨by decide, by cbv, by cbv⟩

end Datum

end Scribe
