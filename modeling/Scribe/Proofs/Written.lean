import Scribe.Proofs.RoundTrip
import Scribe.Proofs.Rework
import Scribe.Proofs.Sessions

/-!
# Arguments that can be given

Whatever is read from JSON at a type becomes a tree of new storage that passes the check of
arguments. The other way round, every tree that a value of the type can be is read from some JSON
value, if its sets have different elements and its maps different keys (`Typed.written`): these are
read with the elements and the entries in their order.
-/

namespace Scribe

open Scribe.Core
open Scribe.Lowering
open Scribe.Machine

/-! ## Members of canonical objects -/

namespace Json

theorem lookup_insertMember (key name : String) (value : Json) (members : List (String × Json)) :
    (insertMember key value members).lookup name =
      if name = key then some value else members.lookup name := by
  induction members with
  | nil => rw [insertMember, lookup_cons]
  | cons member rest ih =>
    obtain ⟨k, v⟩ := member
    unfold insertMember
    split
    · rw [lookup_cons]
    · split
      · next hk =>
        subst hk
        simp only [lookup_cons]
        split <;> rfl
      · next hk =>
        rw [lookup_cons, lookup_cons, ih]
        by_cases hname : name = key
        · rw [if_pos hname, if_pos hname, if_neg (hname ▸ hk)]
        · rw [if_neg hname, if_neg hname]

variable {name : String} {members : List (String × Json)}

theorem lookup_canonicalMembers_of_notMem (h : name ∉ members.map (·.1))
    (sorted : List (String × Json)) :
    (canonicalMembers sorted members).lookup name = sorted.lookup name := by
  induction members generalizing sorted with
  | nil => rw [canonicalMembers]
  | cons member rest ih =>
    obtain ⟨hne, hrest⟩ := not_or.mp (List.mem_cons.not.mp h)
    rw [canonicalMembers, ih hrest, lookup_insertMember, if_neg hne]

/-- A member of an object without repetitions is found in the canonical object. -/
theorem lookup_canonicalMembers {j : Json} (hnodup : (members.map (·.1)).Nodup)
    (h : (name, j) ∈ members) (sorted : List (String × Json)) :
    (canonicalMembers sorted members).lookup name = some j.canonical := by
  induction members generalizing sorted with
  | nil => cases h
  | cons member rest ih =>
    obtain ⟨hfirst, hnodup⟩ := List.nodup_cons.mp hnodup
    rcases List.mem_cons.mp h with rfl | h
    · rw [canonicalMembers, lookup_canonicalMembers_of_notMem hfirst, lookup_insertMember, if_pos rfl]
    · rw [canonicalMembers]
      exact ih hnodup h _

end Json

namespace Datum

/-! ## Structure -/

theorem eq_of_sameAll {as bs : List Datum} (ih : ∀ a ∈ as, ∀ b, same a b = true → a = b)
    (h : sameAll as bs = true) : as = bs := by
  induction as generalizing bs with
  | nil =>
    cases bs with
    | nil => rfl
    | cons b bs => simp [sameAll] at h
  | cons a as ihas =>
    cases bs with
    | nil => simp [sameAll] at h
    | cons b bs =>
      simp only [sameAll, Bool.and_eq_true] at h
      obtain ⟨ha, has⟩ := List.forall_mem_cons.mp ih
      rw [ha b h.1, ihas has h.2]

theorem eq_of_sameEntries {as bs : List (Datum × Datum)}
    (ih : ∀ a ∈ as, (∀ b, same a.1 b = true → a.1 = b) ∧ ∀ b, same a.2 b = true → a.2 = b)
    (h : sameEntries as bs = true) : as = bs := by
  induction as generalizing bs with
  | nil =>
    cases bs with
    | nil => rfl
    | cons b bs => simp [sameEntries] at h
  | cons a as ihas =>
    cases bs with
    | nil => simp [sameEntries] at h
    | cons b bs =>
      simp only [sameEntries, Bool.and_eq_true] at h
      obtain ⟨⟨hk, hv⟩, has⟩ := List.forall_mem_cons.mp ih
      rw [ihas has h.2, Prod.ext (hk _ h.1.1) (hv _ h.1.2)]

/-- Data of the same structure are the same. -/
theorem eq_of_same (a : Datum) : ∀ b, same a b = true → a = b := by
  induction a using nodeInduction with
  | h a ih =>
    intro b h
    cases a with
    | list items | set items =>
      cases b <;> simp [same] at h
      rw [eq_of_sameAll (show ∀ a ∈ items, _ from ih) h]
    | object model name fields =>
      cases b <;> simp [same] at h
      rw [h.1.1, h.1.2, eq_of_sameAll (show ∀ a ∈ fields, _ from ih) h.2]
    | map entries =>
      cases b <;> simp [same] at h
      rw [eq_of_sameEntries (fun e he =>
        ⟨ih e.1 (mem_children_map he).1, ih e.2 (mem_children_map he).2⟩) h]
    | _ => cases b <;> simp_all [same]

/-- The sets in a datum have different elements, and the maps different keys. -/
inductive Distinct : Datum → Prop where
  | intro {d : Datum} (set : ∀ items, d = .set items → items.Nodup)
      (map : ∀ entries, d = .map entries → (entries.map (·.1)).Nodup)
      (children : ∀ c ∈ d.children, c.Distinct) : d.Distinct

theorem distinct_eq_self {items : List Datum} (h : items.Nodup) : distinct items = items := by
  -- what is kept so far and what is left have no datum twice, by induction on what is left
  have hfold (rest kept : List Datum) (h : (kept ++ rest).Nodup) :
      rest.foldl (fun kept d => if kept.any (same · d) then kept else kept ++ [d]) kept =
        kept ++ rest := by
    induction rest generalizing kept with
    | nil => exact (List.append_nil kept).symm
    | cons d rest ih =>
      have hnew : kept.any (same · d) = false := by
        refine Bool.eq_false_iff.mpr fun hany => ?_
        obtain ⟨x, hx, hsame⟩ := List.any_eq_true.mp hany
        exact (List.nodup_append.mp h).2.2 x hx d List.mem_cons_self (eq_of_same x d hsame)
      rw [List.foldl_cons, hnew, if_neg Bool.false_ne_true, ih, List.append_assoc]
      · rfl
      · rwa [List.append_assoc]
  exact hfold items [] h

theorem putEntry_eq_append {key value : Datum} {entries : List (Datum × Datum)}
    (h : key ∉ entries.map (·.1)) : putEntry key value entries = entries ++ [(key, value)] := by
  induction entries with
  | nil => rfl
  | cons entry rest ih =>
    obtain ⟨hne, hrest⟩ := not_or.mp (List.mem_cons.not.mp h)
    rw [putEntry, if_neg fun hsame => hne (eq_of_same _ _ hsame).symm, ih hrest]
    rfl

theorem entriesOfPairs_eq_self {entries : List (Datum × Datum)}
    (h : (entries.map (·.1)).Nodup) : entriesOfPairs entries = entries := by
  have hfold (rest kept : List (Datum × Datum)) (h : ((kept ++ rest).map (·.1)).Nodup) :
      rest.foldl (fun entries pair => putEntry pair.1 pair.2 entries) kept = kept ++ rest := by
    induction rest generalizing kept with
    | nil => exact (List.append_nil kept).symm
    | cons e rest ih =>
      have hnew : e.1 ∉ kept.map (·.1) := by
        intro hmem
        rw [List.map_append] at h
        exact (List.nodup_append.mp h).2.2 _ hmem _ List.mem_cons_self rfl
      rw [List.foldl_cons, putEntry_eq_append hnew, ih, List.append_assoc]
      · rfl
      · rwa [List.append_assoc]
  exact hfold entries [] h

/-! ## Reading what was written -/

variable {p : Program}

/-- A datum that is read from some JSON value. -/
def Written (p : Program) (d : Datum) (t : Ty) : Prop :=
  ∃ j : Json, ofJson p j.canonical t = .ok d

variable {ds : List Datum} {t : Ty} {fields : List Field}

theorem exists_items (h : ∀ d ∈ ds, d.Written p t) :
    ∃ js, ofItems p (Json.canonicalItems js) t = .ok ds := by
  induction ds with
  | nil => exact ⟨[], rfl⟩
  | cons d ds ih =>
    obtain ⟨⟨j, hj⟩, hds⟩ := List.forall_mem_cons.mp h
    obtain ⟨js, hjs⟩ := ih hds
    refine ⟨j :: js, ?_⟩
    rw [Json.canonicalItems, ofItems, hj, hjs]
    rfl

theorem exists_pairs {es : List (Datum × Datum)} {key value : Ty}
    (hkeys : ∀ e ∈ es, e.1.Written p key) (hvalues : ∀ e ∈ es, e.2.Written p value) :
    ∃ js, ofPairs p (Json.canonicalItems js) key value = .ok es := by
  induction es with
  | nil => exact ⟨[], rfl⟩
  | cons e es ih =>
    obtain ⟨⟨k, hk⟩, hkeys⟩ := List.forall_mem_cons.mp hkeys
    obtain ⟨⟨v, hv⟩, hvalues⟩ := List.forall_mem_cons.mp hvalues
    obtain ⟨js, hjs⟩ := ih hkeys hvalues
    refine ⟨.array [k, v] :: js, ?_⟩
    simp only [Json.canonicalItems, Json.canonical, ofPairs, hk, hv, hjs]
    rfl

/-- The members of an object that gives every field its datum. -/
theorem exists_members (h : List.Forall₂ (fun d f => d.Written p f.type) ds fields) :
    ∃ members : List (String × Json), members.map (·.1) = fields.map (·.name) ∧
      List.Forall₂ (fun d f => ∃ j, (f.name, j) ∈ members ∧ ofJson p j.canonical f.type = .ok d)
        ds fields := by
  induction h with
  | nil => exact ⟨[], rfl, .nil⟩
  | @cons d f ds fields hd _ ih =>
    obtain ⟨j, hj⟩ := hd
    obtain ⟨members, hnames, hmembers⟩ := ih
    refine ⟨(f.name, j) :: members, by simp [hnames], .cons ⟨j, List.mem_cons_self, hj⟩ ?_⟩
    refine hmembers.imp fun d f hf => ?_
    obtain ⟨j, hmem, hj⟩ := hf
    exact ⟨j, List.mem_cons_of_mem _ hmem, hj⟩

theorem lookup_conversions (name : String) (members : List (String × Json)) :
    (conversions p members).lookup name = (members.lookup name).map (ofJson p) := by
  induction members with
  | nil => rfl
  | cons member rest ih =>
    obtain ⟨k, v⟩ := member
    rw [conversions, lookup_cons, lookup_cons, ih]
    split <;> rfl

theorem ofFields_eq_ok {model : String} {members : Conversions}
    (h : List.Forall₂ (fun d f => ∃ convert,
      members.lookup f.name = some convert ∧ convert f.type = .ok d) ds fields) :
    ofFields model members fields = .ok ds := by
  induction h with
  | nil => rfl
  | cons hd _ ih =>
    obtain ⟨convert, hconvert, hd⟩ := hd
    rw [ofFields, hconvert]
    dsimp only
    rw [hd, ih]
    rfl

/-- An object that gives the fields of a model, and no other member, gives an instance. -/
theorem exists_object {id : ModelId} {m : Model} (hp : p.Indexed) (hm : p.getModel? id = some m)
    (hnodup : (m.fields.map (·.name)).Nodup) {fields : List Datum}
    (h : List.Forall₂ (fun d f => d.Written p f.type) fields m.fields) :
    (Datum.object id m.name fields).Written p (.model id) := by
  obtain ⟨members, hnames, hmembers⟩ := exists_members h
  have hfields : ofFields m.name (conversions p (Json.canonicalMembers [] members)) m.fields =
      .ok fields := by
    refine ofFields_eq_ok (hmembers.imp fun d f hf => ?_)
    obtain ⟨j, hmem, hj⟩ := hf
    refine ⟨ofJson p j.canonical, ?_, hj⟩
    rw [lookup_conversions, Json.lookup_canonicalMembers (hnames ▸ hnodup) hmem]
    rfl
  -- a member of another name would not be among those that were written
  have hknown : ∀ x ∈ conversions p (Json.canonicalMembers [] members),
      (m.field? x.1).isNone = false := by
    intro x hx
    have hname : x.1 ∈ m.fields.map (·.name) := by
      rw [← hnames]
      by_contra hname
      have hlookup := lookup_conversions (p := p) x.1 (Json.canonicalMembers [] members)
      rw [Json.lookup_canonicalMembers_of_notMem hname] at hlookup
      simpa using List.lookup_eq_none_iff.mp hlookup x hx
    obtain ⟨f, hf, hname⟩ := List.mem_map.mp hname
    obtain ⟨i, hi⟩ := List.mem_iff_getElem?.mp hf
    rw [(hp.field?_eq_some hm).mpr ⟨f, hi, hname⟩]
    rfl
  refine ⟨.object members, ?_⟩
  rw [Json.canonical, ofJson, hm]
  refine Result.bind_eq_ok.mpr ⟨fields, hfields, ?_⟩
  split
  · next x name convert hfind =>
    have hunknown := List.find?_some hfind
    have hknown : (m.field? name).isNone = false := hknown _ (List.mem_of_find?_eq_some hfind)
    cases hunknown.symm.trans hknown
  · rfl

/-- Every datum of a type is read from some JSON value, if its sets have different elements and its
maps different keys. -/
theorem Typed.written {d : Datum} (h : d.Typed p t) (hi : p.Indexed)
    (hp : ∀ id m, p.getModel? id = some m → (m.fields.map (·.name)).Nodup) (hd : d.Distinct) :
    d.Written p t := by
  induction h with
  | bool b => exact ⟨.bool b, rfl⟩
  | int n =>
    refine ⟨.int n.toInt, ?_⟩
    have hn : Json.asInt64? (.number (.int n.toInt)) = some n := Syntax.asInt64?_toInt n
    show ofNumber _ = _
    rw [ofNumber, hn]
  | rune c =>
    refine ⟨.string (String.singleton c), ?_⟩
    simp [Json.canonical, ofJson, ofCharacter]
  | string s => exact ⟨.string s, rfl⟩
  | null id => exact ⟨.null, rfl⟩
  | list _ ih =>
    obtain ⟨hset, hmap, hchildren⟩ := hd
    obtain ⟨js, hjs⟩ := exists_items fun d hd => ih d hd (hchildren d hd)
    refine ⟨.array js, ?_⟩
    rw [Json.canonical, ofJson]
    exact Result.bind_eq_ok.mpr ⟨_, hjs, rfl⟩
  | set _ ih =>
    obtain ⟨hset, hmap, hchildren⟩ := hd
    obtain ⟨js, hjs⟩ := exists_items fun d hd => ih d hd (hchildren d hd)
    refine ⟨.array js, ?_⟩
    rw [Json.canonical, ofJson]
    refine Result.bind_eq_ok.mpr ⟨_, hjs, ?_⟩
    rw [distinct_eq_self (hset _ rfl)]
    rfl
  | map _ _ ihk ihv =>
    obtain ⟨hset, hmap, hchildren⟩ := hd
    obtain ⟨js, hjs⟩ := exists_pairs
      (fun e he => ihk e he (hchildren _ (mem_children_map he).1))
      fun e he => ihv e he (hchildren _ (mem_children_map he).2)
    refine ⟨.array js, ?_⟩
    rw [Json.canonical, ofJson]
    refine Result.bind_eq_ok.mpr ⟨_, hjs, ?_⟩
    rw [entriesOfPairs_eq_self (hmap _ rfl)]
    rfl
  | @object id m _ fields hm hname hlength _ ih =>
    obtain ⟨hset, hmap, hchildren⟩ := hd
    subst hname
    refine exists_object hi hm (hp id m hm) ?_
    rw [← List.forall₂_map_right_iff (f := fun f : Field => f.type)]
    refine List.forall₂_iff_zip.mpr ⟨hlength, fun {d t} hx => ?_⟩
    exact ih (d, t) hx (hchildren d (List.of_mem_zip hx).1)

end Datum

/-! ## Lowered programs -/

theorem Lowering.ModelMade.nodup_fields {p : Program} {id : ModelId} {md : Syntax.Model}
    {model : Model} (h : ModelMade p id md model) : (model.fields.map (·.name)).Nodup := by
  rw [FieldOf.map_name h.fields]
  exact (List.nodup_append.mp h.distinct).1

theorem Lowering.lower_nodup_fields {m : Syntax.Module} {limit : Option Nat} {p : Program}
    (h : lower m limit = .ok p) (id : ModelId) (model : Model)
    (hmodel : p.getModel? id = some model) : (model.fields.map (·.name)).Nodup := by
  obtain ⟨_, ts, htraced⟩ := lower_traced h
  obtain ⟨md, hmd⟩ := (htraced.exists_model id).mp ⟨model, hmodel⟩
  obtain ⟨model', hmodel', hmade⟩ := htraced.models hmd
  cases hmodel.symm.trans hmodel'
  exact hmade.nodup_fields

namespace Machine

/-- What is read from JSON at a type is a datum of that type: `null` stands only at models, and an
instance has the id and the name of the model and one datum for each field, in order. Put into any
storage it becomes a tree of new cells that spells it and passes the check of arguments, so a call
with arguments that spell what was read at the types of the parameters gets as far as the
constants. The other way round, every value that spells a datum of a type has a JSON value from
which that datum is read, with its elements and entries in their order, if its sets have different
elements and its maps different keys. -/
theorem arguments_read_and_written {m : Syntax.Module} {limit : Option Nat} {p : Program}
    (h : lower m limit = .ok p) :
    (∀ j t d, Datum.ofJson p j t = .ok d → d.Typed p t ∧ ∀ heap : Heap,
        conforms (d.store heap).2 t (d.store heap).1 = true ∧
        ∃ cells, (d.store heap).2.Spells ⟨(d.store heap).1, d, cells⟩ ∧
          Fresh heap (d.store heap).2 cells) ∧
    (∀ entry id f s arguments,
      p.function? entry = some id → p.getFunction? id = some f →
      List.Forall₂ (fun v q => ∃ x : Spelled, x.value = v ∧ s.heap.Spells x ∧
        ∃ j, Datum.ofJson p j q.type = .ok x.datum) arguments f.parameters →
      ∀ fuel, Machine.run p fuel entry arguments s =
        (initConstants (.ofFuel p fuel) >>= fun _ =>
          callFunction (.ofFuel p fuel) id none arguments) s) ∧
    ∀ (heap : Heap) (x : Spelled) (t : Ty), heap.Spells x → x.datum.Typed p t →
      x.datum.Distinct → ∃ j : Json, Datum.ofJson p j.canonical t = .ok x.datum := by
  refine ⟨fun j t d hd => ?_, fun entry id f s arguments hnamed hfound harguments fuel => ?_,
    fun heap x t _ ht hx => ?_⟩
  · have ht := Datum.ofJson_typed j hd
    refine ⟨ht, fun heap => ?_⟩
    obtain ⟨cells, hspells, hfresh⟩ := d.store_laid heap
    exact ⟨hspells.conforms ht, cells, hspells, hfresh⟩
  · refine run_eq hnamed hfound harguments.length_eq.symm (checkArguments_of_spells ?_)
    refine harguments.imp fun v q hv => ?_
    obtain ⟨x, hvalue, hspells, j, hj⟩ := hv
    exact ⟨x, hvalue, hspells, Datum.ofJson_typed j hj⟩
  · exact ht.written (lower_pending h).signatures.indexed (lower_nodup_fields h) hx

/-- A set of two numbers, and what it spells. -/
def twoNumbers : Spelled :=
  ⟨.set 0, .set [.int 3, .int 1], [.set 0]⟩

theorem twoNumbers_read_and_written :
    (∃ s, findThree.run (({} : State).read itemThree) = .ok (.object ⟨0⟩ 0) s) ∧
    ∃ j : Json, Datum.ofJson sampleProgram j.canonical (.set .int) = .ok twoNumbers.datum := by
  obtain ⟨_, hrun, hwritten⟩ := arguments_read_and_written lower_sampleModule
  refine ⟨?_, hwritten { sets := #[#[.int 3, .int 1]] } twoNumbers (.set .int) ?_ ?_ ?_⟩
  · obtain ⟨cells, hspells, _⟩ := itemThree.store_laid {}
    have harguments := hrun "find" ⟨1⟩ findThree.function (({} : State).read itemThree)
      [.list 0, .int 3] findThree.named findThree.found
    rw [findThree, findFunction_parameters] at harguments
    have hrun := harguments (.cons ⟨_, rfl, hspells, _, ofJson_itemThree⟩
      (.cons ⟨_, rfl, .int 3, _, ofJson_three⟩ .nil)) 8
    exact ⟨_, hrun.trans (by cbv)⟩
  · exact @Heap.Spells.set _ 0 [⟨.int 3, .int 3, []⟩, ⟨.int 1, .int 1, []⟩] rfl
      (by simp [Heap.Spells.int])
  · exact .set (by simp [Datum.Typed.int])
  · refine .intro ?_ ?_ ?_
    · rintro items ⟨⟩
      simp
    · rintro entries ⟨⟩
    · intro c hc
      simp only [twoNumbers, Datum.children, List.mem_cons, List.not_mem_nil, or_false] at hc
      rcases hc with rfl | rfl
      all_goals exact .intro (by rintro _ ⟨⟩) (by rintro _ ⟨⟩) (List.forall_mem_nil _)

end Machine

end Scribe
