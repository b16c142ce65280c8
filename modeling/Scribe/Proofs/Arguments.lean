import Scribe.Argument.Convert
import Scribe.Proofs.Safety
import Scribe.Proofs.Trees

/-!
# Arguments have the types they were read at

A JSON value that is read at a type gives a datum of that type (`ofJson_typed`). Put into storage,
the datum becomes a value of the type (`Typed.storable`), and one that passes the check of arguments
(`Spells.conforms`).
-/

namespace Scribe

open Scribe.Core
open Scribe.Lowering
open Scribe.Machine

/-- A datum of a type. Unlike a value, only an instance can be null. An instance has the id and the
name of its model and a datum for each field. -/
inductive Datum.Typed (p : Program) : Datum → Ty → Prop where
  | bool (value : Bool) : Datum.Typed p (.bool value) .bool
  | int (value : Int64) : Datum.Typed p (.int value) .int
  | rune (value : Char) : Datum.Typed p (.rune value) .rune
  | string (value : String) : Datum.Typed p (.string value) .string
  | list {items : List Datum} {item : Ty} (h : ∀ d ∈ items, Datum.Typed p d item) :
      Datum.Typed p (.list items) (.list item)
  | set {items : List Datum} {item : Ty} (h : ∀ d ∈ items, Datum.Typed p d item) :
      Datum.Typed p (.set items) (.set item)
  | map {entries : List (Datum × Datum)} {key value : Ty}
      (hkeys : ∀ e ∈ entries, Datum.Typed p e.1 key)
      (hvalues : ∀ e ∈ entries, Datum.Typed p e.2 value) :
      Datum.Typed p (.map entries) (.map key value)
  | null (id : ModelId) : Datum.Typed p .null (.model id)
  | object {id : ModelId} {m : Model} {name : String} {fields : List Datum}
      (hm : p.getModel? id = some m) (hname : name = m.name)
      (hlength : fields.length = (m.fields.map (·.type)).length)
      (h : ∀ x ∈ fields.zip (m.fields.map (·.type)), Datum.Typed p x.1 x.2) :
      Datum.Typed p (.object id name fields) (.model id)

namespace Datum

variable {p : Program}

/-! ## Reading -/

variable {d : Datum} {text : String} {key value : Ty} {members : Conversions}

theorem ofNumber_typed {number : Json.Number} (h : ofNumber number = .ok d) : d.Typed p .int := by
  unfold ofNumber at h
  split at h
  · cases h
    exact .int _
  · cases h

theorem ofCharacter_typed (h : ofCharacter text = .ok d) : d.Typed p .rune := by
  unfold ofCharacter at h
  split at h
  · cases h
    exact .rune _
  · cases h

theorem ofKey_typed {t : Ty} (h : ofKey text t = .ok d) : d.Typed p t := by
  unfold ofKey at h
  split at h
  · cases h
    exact .string _
  · split at h
    · cases h
      exact .int _
    · cases h
  · exact ofCharacter_typed h
  · split at h
    · cases h
      exact .bool true
    · split at h
      · cases h
        exact .bool false
      · cases h
  · cases h

/-- Leaving out equal data takes nothing in. -/
theorem mem_of_mem_distinct {items : List Datum} (h : d ∈ distinct items) : d ∈ items := by
  have hfold (rest kept : List Datum) :
      ∀ d ∈ rest.foldl (fun kept d => if kept.any (same · d) then kept else kept ++ [d]) kept,
        d ∈ kept ∨ d ∈ rest := by
    induction rest generalizing kept with
    | nil => exact fun d hd => .inl hd
    | cons first rest ih =>
      intro d hd
      obtain hd | hd := ih _ d hd
      · dsimp only at hd
        split at hd
        · exact .inl hd
        · obtain hd | hd := List.mem_append.mp hd
          · exact .inl hd
          · rw [List.mem_singleton.mp hd]
            exact .inr List.mem_cons_self
      · exact .inr (List.mem_cons_of_mem _ hd)
  obtain hd | hd := hfold items [] d h
  · cases hd
  · exact hd

theorem putEntry_typed {k v : Datum} (hk : k.Typed p key) (hv : v.Typed p value)
    {entries : List (Datum × Datum)} (h : ∀ e ∈ entries, e.1.Typed p key ∧ e.2.Typed p value) :
    ∀ e ∈ putEntry k v entries, e.1.Typed p key ∧ e.2.Typed p value := by
  induction entries with
  | nil => exact List.forall_mem_singleton.mpr ⟨hk, hv⟩
  | cons entry rest ih =>
    obtain ⟨hentry, hrest⟩ := List.forall_mem_cons.mp h
    unfold putEntry
    split
    · exact List.forall_mem_cons.mpr ⟨⟨hentry.1, hv⟩, hrest⟩
    · exact List.forall_mem_cons.mpr ⟨hentry, ih hrest⟩

theorem entriesOfPairs_typed {pairs : List (Datum × Datum)}
    (h : ∀ e ∈ pairs, e.1.Typed p key ∧ e.2.Typed p value) :
    ∀ e ∈ entriesOfPairs pairs, e.1.Typed p key ∧ e.2.Typed p value := by
  -- the entries so far have the types, by induction on the pairs that are left
  have hfold (pairs entries : List (Datum × Datum))
      (hpairs : ∀ e ∈ pairs, e.1.Typed p key ∧ e.2.Typed p value)
      (hentries : ∀ e ∈ entries, e.1.Typed p key ∧ e.2.Typed p value) :
      ∀ e ∈ pairs.foldl (fun entries pair => putEntry pair.1 pair.2 entries) entries,
        e.1.Typed p key ∧ e.2.Typed p value := by
    induction pairs generalizing entries with
    | nil => exact hentries
    | cons pair rest ih =>
      obtain ⟨hpair, hrest⟩ := List.forall_mem_cons.mp hpairs
      exact ih _ hrest (putEntry_typed hpair.1 hpair.2 hentries)
  exact hfold pairs [] h (List.forall_mem_nil _)

theorem ofFields_typed {model : String}
    (hmembers : ∀ x ∈ members, ∀ t d, x.2 t = .ok d → d.Typed p t) {fields : List Field}
    {ds : List Datum} (h : ofFields model members fields = .ok ds) :
    List.Forall₂ (Datum.Typed p) ds (fields.map (·.type)) := by
  induction fields generalizing ds with
  | nil =>
    cases h
    exact .nil
  | cons f rest ih =>
    unfold ofFields at h
    cases hconvert : members.lookup f.name with
    | none =>
      rw [hconvert] at h
      cases h
    | some convert =>
      rw [hconvert] at h
      dsimp only at h
      cases hd : convert f.type with
      | error e =>
        rw [hd] at h
        cases h
      | ok d =>
        rw [hd] at h
        obtain ⟨ds', hds', hcons⟩ := Result.bind_eq_ok.mp h
        cases hcons
        have hmem : (f.name, convert) ∈ members := by
          obtain ⟨l1, l2, hsplit, _⟩ := List.lookup_eq_some_iff.mp hconvert
          rw [hsplit]
          exact List.mem_append_right _ List.mem_cons_self
        exact .cons (hmembers _ hmem f.type d hd) (ih hds')

theorem ofConversions_typed {id : ModelId} {m : Model} (hm : p.getModel? id = some m)
    (hmembers : ∀ x ∈ members, ∀ t d, x.2 t = .ok d → d.Typed p t)
    (h : ofConversions id m members = .ok d) : d.Typed p (.model id) := by
  unfold ofConversions at h
  obtain ⟨fields, hfields, h⟩ := Result.bind_eq_ok.mp h
  obtain ⟨hlength, htyped⟩ := List.forall₂_iff_zip.mp (ofFields_typed hmembers hfields)
  split at h
  · cases h
  · cases h
    exact .object hm rfl hlength fun _ hx => htyped hx

mutual

/-- A JSON value read at a type gives a datum of that type. -/
theorem ofJson_typed (j : Json) {t : Ty} {d : Datum} (h : ofJson p j t = .ok d) :
    d.Typed p t := by
  unfold ofJson at h
  split at h
  · cases h
    exact .bool _
  · exact ofNumber_typed h
  · exact ofCharacter_typed h
  · cases h
    exact .string _
  · next items item =>
    obtain ⟨ds, hds, hd⟩ := Result.bind_eq_ok.mp h
    cases hd
    exact .list (ofItems_typed items hds)
  · next items item =>
    obtain ⟨ds, hds, hd⟩ := Result.bind_eq_ok.mp h
    cases hd
    exact .set fun d hd => ofItems_typed items hds d (mem_of_mem_distinct hd)
  · next items key value =>
    obtain ⟨pairs, hpairs, hd⟩ := Result.bind_eq_ok.mp h
    cases hd
    have hentries := entriesOfPairs_typed (ofPairs_typed items hpairs)
    exact .map (fun e he => (hentries e he).1) fun e he => (hentries e he).2
  · next members key value =>
    obtain ⟨entries, hentries, hd⟩ := Result.bind_eq_ok.mp h
    cases hd
    have hentries := ofEntries_typed members hentries
    exact .map (fun e he => (hentries e he).1) fun e he => (hentries e he).2
  · cases h
    exact .null _
  · next members id =>
    split at h
    · next m hm => exact ofConversions_typed hm (conversions_typed members) h
    · cases h
  · cases h
termination_by sizeOf j

theorem ofItems_typed (items : List Json) {t : Ty} {ds : List Datum}
    (h : ofItems p items t = .ok ds) : ∀ d ∈ ds, d.Typed p t := by
  cases items with
  | nil =>
    cases h
    exact List.forall_mem_nil _
  | cons j rest =>
    unfold ofItems at h
    obtain ⟨d, hd, h⟩ := Result.bind_eq_ok.mp h
    obtain ⟨ds', hds, h⟩ := Result.bind_eq_ok.mp h
    cases h
    exact List.forall_mem_cons.mpr ⟨ofJson_typed j hd, ofItems_typed rest hds⟩
termination_by sizeOf items

theorem ofPairs_typed (items : List Json) {key value : Ty} {pairs : List (Datum × Datum)}
    (h : ofPairs p items key value = .ok pairs) :
    ∀ e ∈ pairs, e.1.Typed p key ∧ e.2.Typed p value := by
  match items with
  | [] =>
    cases h
    exact List.forall_mem_nil _
  | .array [k, v] :: rest =>
    unfold ofPairs at h
    obtain ⟨dk, hk, h⟩ := Result.bind_eq_ok.mp h
    obtain ⟨dv, hv, h⟩ := Result.bind_eq_ok.mp h
    obtain ⟨es, hes, h⟩ := Result.bind_eq_ok.mp h
    cases h
    exact List.forall_mem_cons.mpr
      ⟨⟨ofJson_typed k hk, ofJson_typed v hv⟩, ofPairs_typed rest hes⟩
  | .null :: _ | .bool _ :: _ | .number _ :: _ | .string _ :: _ | .object _ :: _
  | .array [] :: _ | .array [_] :: _ | .array (_ :: _ :: _ :: _) :: _ => cases h
termination_by sizeOf items

theorem ofEntries_typed (members : List (String × Json)) {key value : Ty}
    {entries : List (Datum × Datum)} (h : ofEntries p members key value = .ok entries) :
    ∀ e ∈ entries, e.1.Typed p key ∧ e.2.Typed p value := by
  match members with
  | [] =>
    cases h
    exact List.forall_mem_nil _
  | (k, v) :: rest =>
    unfold ofEntries at h
    obtain ⟨dk, hk, h⟩ := Result.bind_eq_ok.mp h
    obtain ⟨dv, hv, h⟩ := Result.bind_eq_ok.mp h
    obtain ⟨es, hes, h⟩ := Result.bind_eq_ok.mp h
    cases h
    exact List.forall_mem_cons.mpr
      ⟨⟨ofKey_typed hk, ofJson_typed v hv⟩, ofEntries_typed rest hes⟩
termination_by sizeOf members

theorem conversions_typed (members : List (String × Json)) :
    ∀ x ∈ conversions p members, ∀ t d, x.2 t = .ok d → d.Typed p t := by
  match members with
  | [] => exact List.forall_mem_nil _
  | (k, v) :: rest =>
    exact List.forall_mem_cons.mpr ⟨fun t d hd => ofJson_typed v hd, conversions_typed rest⟩
termination_by sizeOf members

end

end Datum

/-! ## The check of arguments -/

/-- A value that spells a datum of a type passes the check. -/
theorem Machine.Heap.Spells.conforms {p : Program} {h : Heap} {x : Spelled} (hx : h.Spells x)
    {t : Ty} (ht : x.datum.Typed p t) : Machine.conforms h t x.value = true := by
  induction hx generalizing t with
  | null | bool | int | rune | string =>
    cases ht
    rfl
  | list ha _ ih =>
    cases ht with
    | list hitems =>
      rw [Machine.conforms, Heap.list, ha, Option.getD_some, Array.all_eq_true_iff_forall_mem]
      simp only [List.mem_toArray, List.forall_mem_map]
      exact fun x hx => ih x hx (hitems _ (List.mem_map_of_mem hx))
  | set ha _ ih =>
    cases ht with
    | set hitems =>
      rw [Machine.conforms, Heap.set, ha, Option.getD_some, Array.all_eq_true_iff_forall_mem]
      simp only [List.mem_toArray, List.forall_mem_map]
      exact fun x hx => ih x hx (hitems _ (List.mem_map_of_mem hx))
  | map ha _ _ ihk ihv =>
    cases ht with
    | map hkeys hvalues =>
      rw [Machine.conforms, Heap.map, ha, Option.getD_some, Array.all_eq_true_iff_forall_mem]
      simp only [List.mem_toArray, List.forall_mem_map]
      rw [List.forall_mem_map] at hkeys hvalues
      intro x hx
      rw [ihk x hx (hkeys x hx), ihv x hx (hvalues x hx)]
      rfl
  | object =>
    cases ht
    exact beq_self_eq_true _

/-- Arguments that spell data of the types of the parameters pass the check. -/
theorem checkArguments_of_spells {p : Program} {h : Heap} {arguments : List Value}
    {parameters : List Parameter} (harguments : List.Forall₂ (fun v q =>
      ∃ x : Spelled, x.value = v ∧ h.Spells x ∧ x.datum.Typed p q.type) arguments parameters) :
    checkArguments p h parameters arguments = .ok () := by
  induction harguments with
  | nil => rfl
  | cons hx _ ih =>
    obtain ⟨x, rfl, hspells, htyped⟩ := hx
    rw [checkArguments, if_pos (hspells.conforms htyped), ih]

/-! ## Storing -/

/-- What storing a datum leaves behind: a value of the type. -/
structure Stores (p : Program) (w : World) (v : Value) (t : Ty) (w' : World) (h' : Heap) :
    Prop where
  le : w.Le w'
  types : w'.Types p h'
  typed : HasType w'.inner v t

namespace Datum

variable {p : Program}

/-- A datum that becomes a value of a type. -/
def Storable (p : Program) (d : Datum) (t : Ty) : Prop :=
  ∀ w h, w.Types p h → ∃ w', Stores p w (store h d).1 t w' (store h d).2

variable {w : World} {h : Heap}

theorem storeAll_stores {ds : List Datum} {ts : List Ty} (hds : List.Forall₂ (Storable p) ds ts)
    (hw : w.Types p h) :
    ∃ w' : World, w.Le w' ∧ w'.Types p (storeAll h ds).2 ∧
      AllTyped w'.inner (storeAll h ds).1 ts := by
  induction hds generalizing w h with
  | nil => exact ⟨w, .refl w, hw, .nil⟩
  | cons hd _ ih =>
    obtain ⟨w1, hfirst⟩ := hd w h hw
    obtain ⟨w2, hle, hw2, htyped⟩ := ih hfirst.types
    exact ⟨w2, hfirst.le.trans hle, hw2, .cons (hfirst.typed.mono hle.inner) htyped⟩

theorem storeEntries_stores {es : List (Datum × Datum)} {key value : Ty}
    (hkeys : ∀ e ∈ es, Storable p e.1 key) (hvalues : ∀ e ∈ es, Storable p e.2 value)
    (hw : w.Types p h) :
    ∃ w' : World, w.Le w' ∧ w'.Types p (storeEntries h es).2 ∧
      ∀ e ∈ (storeEntries h es).1, HasType w'.inner e.1 key ∧ HasType w'.inner e.2 value := by
  induction es generalizing w h with
  | nil => exact ⟨w, .refl w, hw, List.forall_mem_nil _⟩
  | cons e es ih =>
    obtain ⟨hkey, hkeys⟩ := List.forall_mem_cons.mp hkeys
    obtain ⟨hvalue, hvalues⟩ := List.forall_mem_cons.mp hvalues
    obtain ⟨w1, hk⟩ := hkey w h hw
    obtain ⟨w2, hv⟩ := hvalue w1 _ hk.types
    obtain ⟨w3, hle, hw3, hrest⟩ := ih hkeys hvalues hv.types
    refine ⟨w3, (hk.le.trans hv.le).trans hle, hw3, List.forall_mem_cons.mpr ⟨⟨?_, ?_⟩, hrest⟩⟩
    · exact hk.typed.mono (hv.le.trans hle).inner
    · exact hv.typed.mono hle.inner

theorem storeItems_stores {items : List Datum} {item : Ty}
    (hitems : ∀ d ∈ items, Storable p d item) (hw : w.Types p h) :
    ∃ w' : World, w.Le w' ∧ w'.Types p (storeAll h items).2 ∧
      ItemsTyped w'.inner item (storeAll h items).1.toArray := by
  obtain ⟨w', hle, hw', htyped⟩ := storeAll_stores (forall₂_replicate hitems) hw
  refine ⟨w', hle, hw', fun v hv => ?_⟩
  exact forall_mem_of_replicate htyped v (List.mem_toArray.mp hv)

/-- A datum of a type becomes a value of that type, whatever storage there is already. -/
theorem Typed.storable {d : Datum} {t : Ty} (h : d.Typed p t) : Storable p d t := by
  induction h with
  | bool b => exact fun w heap hw => ⟨w, .refl w, hw, .bool b⟩
  | int n => exact fun w heap hw => ⟨w, .refl w, hw, .int n⟩
  | rune c => exact fun w heap hw => ⟨w, .refl w, hw, .rune c⟩
  | string s => exact fun w heap hw => ⟨w, .refl w, hw, .string s⟩
  | null id => exact fun w heap hw => ⟨w, .refl w, hw, .null (by rintro ⟨⟩)⟩
  | list _ ih =>
    intro w heap hw
    obtain ⟨w1, hle1, hw1, htyped⟩ := storeItems_stores ih hw
    obtain ⟨w2, hle2, hw2, ha, _⟩ := hw1.newList htyped
    exact ⟨w2, hle1.trans hle2, hw2, .list ha⟩
  | set _ ih =>
    intro w heap hw
    obtain ⟨w1, hle1, hw1, htyped⟩ := storeItems_stores ih hw
    obtain ⟨w2, hle2, hw2, ha, _⟩ := hw1.newSet htyped
    exact ⟨w2, hle1.trans hle2, hw2, .set ha⟩
  | @map entries key value _ _ ihk ihv =>
    intro w heap hw
    obtain ⟨w1, hle1, hw1, hentries⟩ := storeEntries_stores ihk ihv hw
    have htyped : EntriesTyped w1.inner (key, value) (storeEntries heap entries).1.toArray :=
      fun e he => hentries e (List.mem_toArray.mp he)
    obtain ⟨w2, hle2, hw2, ha, _⟩ := hw1.newMap htyped
    exact ⟨w2, hle1.trans hle2, hw2, .map ha⟩
  | @object id m name fields hm hname hlength _ ih =>
    intro w heap hw
    have hfields : List.Forall₂ (Storable p) fields (m.fields.map (·.type)) :=
      List.forall₂_iff_zip.mpr ⟨hlength, fun hx => ih _ hx⟩
    obtain ⟨w1, hle1, hw1, htyped⟩ := storeAll_stores hfields hw
    have hobject : ObjectTyped p w1.inner id ⟨name, (storeAll heap fields).1.toArray⟩ :=
      ⟨m, hm, hname, htyped⟩
    obtain ⟨w2, hle2, hw2, ha⟩ := hw1.newObject hobject
    exact ⟨w2, hle1.trans hle2, hw2, .object ha⟩

end Datum

end Scribe
