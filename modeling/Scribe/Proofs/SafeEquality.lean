import Scribe.Proofs.Safety

/-!
# Equality and hashes are safe

Equality and hashes can run code, that of the overrides of models. They are safe if calls are: then
they change nothing that their callers rely on, and a search gives a position that is there.

What code needs from the environments it runs in is that they compare and hash values alike and
safely. A `Setting` is a family of such environments.
-/

namespace Scribe.Machine

open Scribe.Core
open Exec (look)

/-- A run may be out of fuel anywhere, and is endless only over a key that contains itself. -/
def Unfinished (stop : Stop) (h : Heap) : Prop :=
  ∀ map key, stop = .endless map key → h.ContainsItself key

/-- An environment whose calls are safe: a body that runs in a frame of its callable gives a value
of the type that the callable returns. -/
structure EnvSafe (p : Program) (env : Env) : Prop where
  program : env.program = p
  invoke : ∀ {w callable body t frame} name, p.body? callable = some body →
    p.callableReturnType? callable = some t → FrameTyped p (some callable) w.inner frame →
      Calls Unfinished p w (fun _ : Unit => env.invoke name body frame)
        fun w' v => HasType w'.inner v t

section Results

variable {ι : Type} {X : Stop → Heap → Prop} {p : Program} {site : Site} {w : World} {v : Value}

theorem asBool_safe (hv : HasType w.inner v .bool) :
    Safe X p site w (fun _ : ι => Exec.ofExcept (asBool v)) fun _ _ => True := by
  cases hv with
  | null _ => exact .fault (.nullGot "bool")
  | bool b => exact .pure trivial

theorem asInt_safe (hv : HasType w.inner v .int) :
    Safe X p site w (fun _ : ι => Exec.ofExcept (asInt v)) fun _ _ => True := by
  cases hv with
  | null _ => exact .fault (.nullGot "int")
  | int n => exact .pure trivial

end Results

/-! ## Searching -/

/-- Equalities that are safe on values of two types. -/
def EqSafe {ι : Type} (X : Stop → Heap → Prop) (p : Program) (site : Site) (t t' : Ty)
    (eq : ι → Value → Value → Exec Bool) : Prop :=
  ∀ {w l r}, HasType w.inner l t → HasType w.inner r t' →
    Safe X p site w (fun i => eq i l r) fun _ _ => True

section Search

variable {ι : Type} {X : Stop → Heap → Prop} {p : Program} {site : Site}
  {eq : ι → Value → Value → Exec Bool} {w : World}

section Position

variable {t item : Ty} (heq : EqSafe X p site item t eq) {value : Value}

include heq

/-- A search ends at a position that is there. -/
theorem positionFrom_safe (hv : HasType w.inner value t) {items : List Value}
    (hitems : ∀ v ∈ items, HasType w.inner v item) (index : Nat) :
    Safe X p site w (fun i => positionFrom (eq i) value index items)
      fun _ r => ∀ i, r = some i → i < index + items.length := by
  induction items generalizing w index with
  | nil => exact .pure (by rintro _ ⟨⟩)
  | cons v rest ih =>
    obtain ⟨hfirst, hrest⟩ := List.forall_mem_cons.mp hitems
    unfold positionFrom
    refine .bind (heq hfirst hv) fun w' found hle _ => ?_
    cases found with
    | true =>
      refine .pure fun i hi => ?_
      cases hi
      rw [List.length_cons]
      omega
    | false =>
      refine (ih (hv.mono hle.inner) (fun v hv => (hrest v hv).mono hle.inner) (index + 1)).imp ?_
      intro _ r _ hr i hi
      have hlt := hr i hi
      rw [List.length_cons]
      omega

theorem position_safe (hv : HasType w.inner value t) {items : List Value}
    (hitems : ∀ v ∈ items, HasType w.inner v item) :
    Safe X p site w (fun i => position (eq i) items value)
      fun _ r => ∀ i, r = some i → i < items.length := by
  refine (positionFrom_safe heq hv hitems 0).imp fun _ r _ hr i hi => ?_
  have hlt := hr i hi
  omega

theorem findKey_safe (hkey : HasType w.inner value t) {other : Ty}
    {entries : List (Value × Value)}
    (hentries : ∀ e ∈ entries, HasType w.inner e.1 item ∧ HasType w.inner e.2 other) :
    Safe X p site w (fun i => findKey (eq i) entries value)
      fun _ r => ∀ i, r = some i → i < entries.length := by
  have hkeys : ∀ v ∈ entries.map (·.1), HasType w.inner v item :=
    List.forall_mem_map.mpr fun e he => (hentries e he).1
  refine (position_safe heq hkey hkeys).imp fun _ r _ hr i hi => ?_
  have hlt := hr i hi
  rw [List.length_map] at hlt
  exact hlt

end Position

/-! ## Comparing containers -/

variable (heq : ∀ t t', EqSafe X p site t t' eq)

include heq

theorem itemsEqual_safe {t t' : Ty} {as bs : List Value}
    (has : ∀ v ∈ as, HasType w.inner v t) (hbs : ∀ v ∈ bs, HasType w.inner v t') :
    Safe X p site w (fun i => itemsEqual (eq i) as bs) fun _ _ => True := by
  induction as generalizing w bs with
  | nil => exact .pure trivial
  | cons a as ih =>
    cases bs with
    | nil => exact .pure trivial
    | cons b bs =>
      obtain ⟨ha, has⟩ := List.forall_mem_cons.mp has
      obtain ⟨hb, hbs⟩ := List.forall_mem_cons.mp hbs
      unfold itemsEqual
      refine .bind (heq t t' ha hb) fun w' same hle _ => ?_
      cases same with
      | true =>
        exact ih (fun v hv => (has v hv).mono hle.inner) fun v hv => (hbs v hv).mono hle.inner
      | false => exact .pure trivial

theorem elementsFound_safe {t t' : Ty} {others items : List Value}
    (hothers : ∀ v ∈ others, HasType w.inner v t) (hitems : ∀ v ∈ items, HasType w.inner v t') :
    Safe X p site w (fun i => elementsFound (eq i) others items) fun _ _ => True := by
  induction items generalizing w with
  | nil => exact .pure trivial
  | cons v rest ih =>
    obtain ⟨hfirst, hrest⟩ := List.forall_mem_cons.mp hitems
    unfold elementsFound
    refine .bind (position_safe (heq t t') hfirst hothers) fun w' found hle _ => ?_
    cases found with
    | none => exact .pure trivial
    | some i =>
      exact ih (fun v hv => (hothers v hv).mono hle.inner) fun v hv => (hrest v hv).mono hle.inner

theorem entriesFound_safe {ts ts' : Ty × Ty} {others entries : List (Value × Value)}
    (hothers : ∀ e ∈ others, HasType w.inner e.1 ts.1 ∧ HasType w.inner e.2 ts.2)
    (hentries : ∀ e ∈ entries, HasType w.inner e.1 ts'.1 ∧ HasType w.inner e.2 ts'.2) :
    Safe X p site w (fun i => entriesFound (eq i) others entries) fun _ _ => True := by
  induction entries generalizing w with
  | nil => exact .pure trivial
  | cons e rest ih =>
    obtain ⟨hfirst, hrest⟩ := List.forall_mem_cons.mp hentries
    unfold entriesFound
    refine .bind (findKey_safe (heq ts.1 ts'.1) hfirst.1 hothers) fun w' found hle _ => ?_
    cases found with
    | none => exact .pure trivial
    | some i =>
      dsimp only
      cases hi : others[i]? with
      | none => exact .pure trivial
      | some other =>
        have hother := (hothers other (List.mem_of_getElem? hi)).2
        refine .bind (heq ts'.2 ts.2 (hfirst.2.mono hle.inner) (hother.mono hle.inner)) ?_
        intro w'' same hle' _
        cases same with
        | true =>
          have hle'' := hle.inner.trans hle'.inner
          exact ih (fun e he => ⟨(hothers e he).1.mono hle'', (hothers e he).2.mono hle''⟩)
            fun e he => ⟨(hrest e he).1.mono hle'', (hrest e he).2.mono hle''⟩
        | false => exact .pure trivial

end Search

/-! ## Values -/

section Values

variable {p : Program} {site : Site} {env : Env} (hp : p.Sound) (henv : EnvSafe p env)

include hp henv

/-- The equality of a model is called in a frame of its own, with its receiver and the other
instance. -/
theorem invokeEquality_safe {w : World} {model : ModelId} {m : Model} {e : Equality}
    {a b : Address} (hsite : site.callable.isSome) (hm : p.getModel? model = some m)
    (he : m.equality = some e) (ha : w.inner.objects a = some model)
    (hb : w.inner.objects b = some model) :
    Safe Unfinished p site w (fun _ : Unit => env.invoke "equal" e.body
      { receiver := some (.object model a), locals := [(e.other, .object model b)] })
      fun w' v => HasType w'.inner v .bool := by
  have hbody : p.body? (.equality model) = some e.body := by
    rw [Program.body?, hm, Option.bind_some, he, Option.map_some]
  have hother : p.other? (.equality model) = some e.other := by
    rw [Program.other?, hm, Option.bind_some, he, Option.map_some]
  refine .call hsite (henv.invoke "equal" hbody rfl ⟨?_, by rintro _ _ ⟨⟩, ?_⟩)
  · intro model' hmodel
    cases hmodel
    exact ⟨a, rfl, ha⟩
  · -- the only local that has a value is the other instance
    intro id v l hlookup hl
    have hlookup : [(e.other, Value.object model b)].lookup id = some v := hlookup
    rw [lookup_cons] at hlookup
    by_cases hid : id = e.other
    · rw [if_pos hid] at hlookup
      cases hlookup
      obtain ⟨l', hl', _, ht⟩ := hp.others model e.other hother
      rw [hid] at hl
      cases hl.symm.trans hl'
      rw [ht]
      exact .object hb
    · rw [if_neg hid] at hlookup
      cases hlookup

/-- Equality is safe, by induction on how deep it may go. -/
theorem valuesEqual_safe (depth : Nat) (t t' : Ty) :
    EqSafe Unfinished p site t t' fun _ : Unit => valuesEqual env depth := by
  induction depth generalizing t t' with
  | zero => exact fun _ _ => .exhausted fun _ _ _ => by rintro ⟨⟩
  | succ depth ih =>
    intro w l r hl hr
    show Safe _ _ _ w (fun _ : Unit => valuesEqual env (depth + 1) l r) _
    unfold valuesEqual
    -- values of different kinds are compared at once; containers and objects are left
    split
    case h_7 a b =>
      cases hl with | list ha =>
      cases hr with | list hb =>
      split
      · exact .pure trivial
      · refine .bind (.lookList ha) fun w1 as hle1 has => ?_
        refine .bind (.lookList (hle1.inner.lists _ _ hb)) fun w2 bs hle2 hbs => ?_
        split
        · exact itemsEqual_safe ih (has.mono hle2.inner).mem_toList hbs.mem_toList
        · exact .pure trivial
    case h_8 a b =>
      cases hl with | set ha =>
      cases hr with | set hb =>
      split
      · exact .pure trivial
      · refine .bind (.lookSet ha) fun w1 as hle1 has => ?_
        refine .bind (.lookSet (hle1.inner.sets _ _ hb)) fun w2 bs hle2 hbs => ?_
        split
        · exact elementsFound_safe ih hbs.mem_toList (has.mono hle2.inner).mem_toList
        · exact .pure trivial
    case h_9 a b =>
      cases hl with | map ha =>
      cases hr with | map hb =>
      split
      · exact .pure trivial
      · refine .bind (.lookMap ha) fun w1 as hle1 has => ?_
        refine .bind (.lookMap (hle1.inner.maps _ _ hb)) fun w2 bs hle2 hbs => ?_
        split
        · exact entriesFound_safe ih hbs.mem_toList (has.mono hle2.inner).mem_toList
        · exact .pure trivial
    case h_10 model a model' b =>
      cases hl with | object ha =>
      cases hr with | object hb =>
      -- there are no objects at a constant, so overrides run from bodies only
      refine .object ha fun m hm hsite => ?_
      rw [henv.program]
      refine .ofOption_bind hm ?_
      cases he : m.equality with
      | none => exact .pure trivial
      | some e =>
        dsimp only
        by_cases heq : model = model'
        · subst heq
          rw [if_pos rfl]
          exact .bind (invokeEquality_safe hp henv hsite hm he ha hb) fun w1 v _ hv =>
            asBool_safe hv
        · rw [if_neg heq]
          exact .pure trivial
    all_goals exact .pure trivial

end Values

/-! ## Hashes -/

/-- Hashes that are safe on values of a type. -/
def HashSafe {ι : Type} (X : Stop → Heap → Prop) (p : Program) (site : Site) (t : Ty)
    (hash : ι → Value → Exec Int64) : Prop :=
  ∀ {w v}, HasType w.inner v t → Safe X p site w (fun i => hash i v) fun _ _ => True

section Hashes

variable {p : Program} {site : Site}

section Parts

variable {ι : Type} {X : Stop → Heap → Prop} {hash : ι → Value → Exec Int64}
  (hhash : ∀ t, HashSafe X p site t hash) {w : World}

include hhash

theorem hashAll_safe {t : Ty} {items : List Value} (hitems : ∀ v ∈ items, HasType w.inner v t) :
    Safe X p site w (fun i => hashAll (hash i) items) fun _ _ => True := by
  induction items generalizing w with
  | nil => exact .pure trivial
  | cons v rest ih =>
    obtain ⟨hfirst, hrest⟩ := List.forall_mem_cons.mp hitems
    unfold hashAll
    refine .bind (hhash t hfirst) fun w1 _ hle _ => ?_
    refine .bind (ih fun v hv => (hrest v hv).mono hle.inner) fun w2 _ _ _ => ?_
    exact .pure trivial

theorem hashEntries_safe {ts : Ty × Ty} {entries : List (Value × Value)}
    (hentries : ∀ e ∈ entries, HasType w.inner e.1 ts.1 ∧ HasType w.inner e.2 ts.2) :
    Safe X p site w (fun i => hashEntries (hash i) entries) fun _ _ => True := by
  induction entries generalizing w with
  | nil => exact .pure trivial
  | cons e rest ih =>
    obtain ⟨hfirst, hrest⟩ := List.forall_mem_cons.mp hentries
    unfold hashEntries
    refine .bind (hhash _ hfirst.1) fun w1 _ hle1 _ => ?_
    refine .bind (hhash _ (hfirst.2.mono hle1.inner)) fun w2 _ hle2 _ => ?_
    have hle := hle1.inner.trans hle2.inner
    refine .bind (ih fun e he => ⟨(hrest e he).1.mono hle, (hrest e he).2.mono hle⟩) ?_
    exact fun _ _ _ _ => .pure trivial

end Parts

theorem hashValue_safe {env : Env} (henv : EnvSafe p env) (depth : Nat) (t : Ty) :
    HashSafe Unfinished p site t fun _ : Unit => hashValue env depth := by
  induction depth generalizing t with
  | zero => exact fun _ => .exhausted fun _ _ _ => by rintro ⟨⟩
  | succ depth ih =>
    intro w v hv
    show Safe _ _ _ w (fun _ : Unit => hashValue env (depth + 1) v) _
    unfold hashValue
    cases hv with
    | void | null | bool | int | rune | string => exact .pure trivial
    | list ha =>
      refine .bind (.lookList ha) fun w1 items _ hitems => ?_
      exact .bind (hashAll_safe ih hitems.mem_toList) fun _ _ _ _ => .pure trivial
    | set ha =>
      refine .bind (.lookSet ha) fun w1 items _ hitems => ?_
      exact .bind (hashAll_safe ih hitems.mem_toList) fun _ _ _ _ => .pure trivial
    | map ha =>
      refine .bind (.lookMap ha) fun w1 entries _ hentries => ?_
      exact .bind (hashEntries_safe ih hentries.mem_toList) fun _ _ _ _ => .pure trivial
    | @object a model ha =>
      refine .object ha fun m hm hsite => ?_
      rw [henv.program]
      refine .ofOption_bind hm ?_
      cases hh : m.hashing with
      | none => exact .pure trivial
      | some body =>
        have hbody : p.body? (.hashing model) = some body := by
          rw [Program.body?, hm, Option.bind_some, hh]
        have hframe : FrameTyped p (some (.hashing model)) w.inner
            { receiver := some (.object model a) } := by
          refine ⟨?_, by rintro _ _ ⟨⟩, by rintro _ _ _ ⟨⟩⟩
          intro model' hmodel
          cases hmodel
          exact ⟨a, rfl, ha⟩
        exact .bind (.call hsite (henv.invoke "hash" hbody rfl hframe)) fun w1 v _ hv =>
          asInt_safe hv

end Hashes

/-! ## Settings -/

/-- Environments of a program, one for each index, that compare and hash values alike if the types
of the values are `comparable`. They stop without a fault only where `unfinished` allows it. -/
structure Setting (p : Program) (ι : Type) where
  env : ι → Env
  program : ∀ i, (env i).program = p
  comparable : Ty → Prop
  unfinished : Stop → Heap → Prop
  equal : ∀ {site t t'}, comparable t → comparable t' →
    EqSafe unfinished p site t t' fun i => (env i).equal
  hash : ∀ {site t}, comparable t →
    HashSafe unfinished p site t fun i => hashValue (env i) (env i).fuel

/-- A single environment. -/
def EnvSafe.setting {p : Program} {env : Env} (henv : EnvSafe p env) (hp : p.Sound) :
    Setting p Unit where
  env _ := env
  program _ := henv.program
  comparable _ := True
  unfinished := Unfinished
  equal _ _ := valuesEqual_safe hp henv env.fuel _ _
  hash _ := hashValue_safe henv env.fuel _

/-! ### Sets and maps -/

section Containers

variable {p : Program} {ι : Type} (S : Setting p ι) {site : Site} {w : World} {v : Value}

theorem addElement_safe {a : Address} {item : Ty} (hitem : S.comparable item)
    (ha : w.inner.sets a = some item) (hv : HasType w.inner v item) :
    Safe S.unfinished p site w (fun i => addElement (S.env i) a v) fun _ _ => True := by
  unfold addElement
  refine .bind (.lookSet ha) fun w1 items hle1 hitems => ?_
  refine .bind (position_safe (S.equal hitem hitem) (hv.mono hle1.inner) hitems.mem_toList) ?_
  intro w2 found hle2 _
  cases found with
  | some i => exact .pure trivial
  | none =>
    have hle := hle1.inner.trans hle2.inner
    refine .change fun τ heap hτ hheap => ?_
    exact hheap.pushElement ((hle.trans hτ).sets _ _ ha) (hv.mono (hle.trans hτ))

theorem addToSet_safe {container : Value} {item : Ty} (hitem : S.comparable item)
    (hc : HasType w.inner container (.set item)) (hv : HasType w.inner v item) :
    Safe S.unfinished p site w (fun i => addToSet (S.env i) container v) fun _ _ => True := by
  cases hc with
  | null _ => exact .fault (.nullGot "set")
  | set ha => exact addElement_safe S hitem ha hv

/-- The key is searched in the entries that there were; whatever the search did to the map since,
the entry that is changed or added has the types of the map. -/
theorem putEntry_safe {a : Address} {key value : Ty} {k : Value} (hkey : S.comparable key)
    (ha : w.inner.maps a = some (key, value)) (hk : HasType w.inner k key)
    (hv : HasType w.inner v value) :
    Safe S.unfinished p site w (fun i => putEntry (S.env i) a k v) fun _ _ => True := by
  unfold putEntry
  refine .bind (.lookMap ha) fun w1 entries hle1 hentries => ?_
  refine .bind (findKey_safe (S.equal hkey hkey) (hk.mono hle1.inner) hentries.mem_toList) ?_
  intro w2 found hle2 _
  have hle := hle1.inner.trans hle2.inner
  cases found with
  | some i =>
    refine .change fun τ heap hτ hheap => ?_
    exact hheap.setEntry ((hle.trans hτ).maps _ _ ha) (hv.mono (hle.trans hτ)) i
  | none =>
    refine .change fun τ heap hτ hheap => ?_
    exact hheap.pushEntry ((hle.trans hτ).maps _ _ ha) (hk.mono (hle.trans hτ))
      (hv.mono (hle.trans hτ))

end Containers

end Scribe.Machine
