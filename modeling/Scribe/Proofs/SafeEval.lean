import Scribe.Proofs.SafeEquality

/-!
# Evaluation is safe

An expression that says the truth about itself evaluates to a value of its type, or stops for a
reason that a program can have. Each rule of typing meets what the machine does with values of these
types; null, which has all types, is where the faults come from.
-/

namespace Scribe.Machine

open Scribe.Core
open Scribe.Lowering

/-! ## Operators -/

section Operators

variable {τ : Typing}

theorem toRune_answers (code : Int64) : Answers (HasType τ · .rune) (toRune code) := by
  unfold toRune
  dsimp only
  split
  · exact .rune _
  · exact .fault (.notARune code)

theorem divide_answers (l r : Int64) : Answers (fun _ => True) (divide l r) := by
  unfold divide
  split
  · exact .fault .divisionByZero
  · trivial

theorem remainder_answers (l r : Int64) : Answers (fun _ => True) (remainder l r) := by
  unfold remainder
  split
  · exact .fault .divisionByZero
  · trivial

theorem Answers.bind {α β : Type} {P : α → Prop} {Q : β → Prop} {x : Except Fault α}
    {f : α → Except Fault β} (hx : Answers P x) (hf : ∀ a, Answers Q (f a)) :
    Answers Q (x.bind f) := by
  cases x with
  | ok a => exact hf a
  | error e => exact hx

/-- Arithmetic gives a number of the kind it is done with, comparison a truth value. -/
theorem numeric_answers {op : BinaryOp} {arithmetic output : Primitive} {kind : String}
    {wrap : Int64 → Except Fault Value} {l r : Int64} (hop : op.isEquality = false)
    (h : numericResult? op arithmetic = some output)
    (hwrap : ∀ n, Answers (HasType τ · (.primitive arithmetic)) (wrap n)) :
    Answers (HasType τ · (.primitive output)) (numeric op kind wrap l r) := by
  cases op with
  | equals | notEqual => cases hop
  | and | or => cases h
  | lessThan | lessThanOrEqual | greaterThan | greaterThanOrEqual =>
    cases h
    exact .bool _
  | add | subtract | multiply =>
    cases h
    exact hwrap _
  | divide =>
    cases h
    exact (divide_answers l r).bind hwrap
  | modulo =>
    cases h
    exact (remainder_answers l r).bind hwrap

/-- The operators that typing allows are those that the machine has. -/
theorem applyBinary_answers {op : BinaryOp} {tl tr output : Primitive}
    {table : BinaryOp → Option Primitive} (hop : op.isEquality = false)
    (htable : binaryTable? tl tr = some table) (ho : table op = some output) {l r : Value}
    (hl : HasType τ l (.primitive tl)) (hr : HasType τ r (.primitive tr)) :
    Answers (HasType τ · (.primitive output)) (applyBinary op l r) := by
  obtain ⟨rfl, hvoid⟩ := binaryTable?_eq_some htable
  cases hl with
  | null _ => exact .fault (.nullExpected _)
  | void => exact (hvoid rfl).elim
  | int a =>
    cases hr with
    | null _ => exact .fault (.nullGot _)
    | int b =>
      cases htable
      exact numeric_answers hop ho fun n => .int n
  | rune a =>
    cases hr with
    | null _ => exact .fault (.nullGot _)
    | rune b =>
      cases htable
      exact numeric_answers hop ho toRune_answers
  | string a =>
    cases hr with
    | null _ => exact .fault (.nullGot _)
    | string b =>
      cases htable
      cases op with
      | add =>
        cases ho
        exact .string _
      | equals | notEqual => cases hop
      | _ => cases ho
  | bool a =>
    cases hr with
    | null _ => exact .fault (.nullGot _)
    | bool b =>
      cases htable
      cases op with
      | and | or =>
        cases ho
        exact .bool _
      | _ => cases ho

theorem applyUnary_answers {op : UnaryOp} {t : Ty} {output : Primitive} (hop : op ≠ .hash)
    (h : unaryResult? op t = some output) {v : Value} (hv : HasType τ v t) :
    Answers (HasType τ · (.primitive output)) (applyUnary op v) := by
  cases hv with
  | null _ =>
    have hnull : applyUnary op .null = unsupported op.symbol "null" := by cases op <;> rfl
    rw [hnull]
    exact .fault (.cannotApplyToNull _)
  | bool b =>
    cases op with
    | hash => exact (hop rfl).elim
    | not =>
      cases h
      exact .bool _
    | _ => cases h
  | int n =>
    cases op with
    | hash => exact (hop rfl).elim
    | negate =>
      cases h
      exact .int _
    | _ => cases h
  | rune c =>
    cases op with
    | hash => exact (hop rfl).elim
    | castToInt =>
      cases h
      exact .int _
    | castToString =>
      cases h
      exact .string _
    | _ => cases h
  | _ =>
    cases op with
    | hash => exact (hop rfl).elim
    | _ => cases h

theorem checkedIndex_safe {ι : Type} {X : Stop → Heap → Prop} {p : Program} {site : Site} {w : World}
    (index : Int64) (length : Nat) :
    Safe X p site w (fun _ : ι => Exec.ofExcept (checkedIndex index length)) fun _ _ => True := by
  unfold checkedIndex
  dsimp only
  split
  · exact .pure trivial
  · exact .fault (.indexOutOfBounds index length)

/-- A length is an integer, unless it is too large to be one. -/
theorem lengthValue_answers (length : Nat) :
    Answers (HasType τ · .int) (lengthValue length) := by
  unfold lengthValue
  split
  · exact .int _
  · exact .lengthOverflow

end Operators

/-! ## New instances -/

section Instances

variable {p : Program}

variable {w : World} {h : Heap}

theorem zeroValue_typed (hw : w.Types p h) (t : Ty) :
    ∃ w' : World, w.Le w' ∧ w'.Types p (zeroValue h t).2 ∧
      HasType w'.inner (zeroValue h t).1 t := by
  cases t with
  | primitive t =>
    refine ⟨w, .refl w, ?_, ?_⟩
    · cases t <;> exact hw
    · cases t with
      | bool => exact .bool false
      | int => exact .int 0
      | rune => exact .rune _
      | string => exact .string ""
      | void => exact .void
  | list item =>
    obtain ⟨w', hle, hw', ha, _⟩ := hw.newList (.empty w.inner item)
    exact ⟨w', hle, hw', .list ha⟩
  | set item =>
    obtain ⟨w', hle, hw', ha, _⟩ := hw.newSet (.empty w.inner item)
    exact ⟨w', hle, hw', .set ha⟩
  | map key value =>
    obtain ⟨w', hle, hw', ha, _⟩ := hw.newMap (.empty w.inner (key, value))
    exact ⟨w', hle, hw', .map ha⟩
  | model id => exact ⟨w, .refl w, hw, .null (by rintro ⟨⟩)⟩

theorem zeroValues_typed (hw : w.Types p h) (fields : List Field) :
    ∃ w' : World, w.Le w' ∧ w'.Types p (zeroValues h fields).2 ∧
      AllTyped w'.inner (zeroValues h fields).1 (fields.map (·.type)) := by
  induction fields generalizing w h with
  | nil => exact ⟨w, .refl w, hw, .nil⟩
  | cons f rest ih =>
    obtain ⟨w1, hle1, hw1, hv⟩ := zeroValue_typed hw f.type
    obtain ⟨w2, hle2, hw2, hvs⟩ := ih hw1
    exact ⟨w2, hle1.trans hle2, hw2, .cons (hv.mono hle2.inner) hvs⟩

/-- A new instance has fields of the declared types from the start. -/
theorem instantiate_safe {ι : Type} {X : Stop → Heap → Prop} {site : Site} {id : ModelId} {m : Model}
    (hm : p.getModel? id = some m) (hsite : site.callable.isSome) :
    Safe X p site w (fun _ : ι => Exec.alloc (instantiate m))
      fun w' a => w'.inner.objects a = some id := by
  refine .alloc fun heap hw => ?_
  obtain ⟨w1, hle1, hw1, hvs⟩ := zeroValues_typed hw m.fields
  have hobject : ObjectTyped p w1.inner id ⟨m.name, (zeroValues heap m.fields).1.toArray⟩ :=
    ⟨m, hm, rfl, hvs⟩
  obtain ⟨w2, hle2, hw2, ha⟩ := hw1.newObject hobject
  exact ⟨w2, hle1.trans hle2, hw2, ha, .inr hsite⟩

end Instances

/-! ## Variables and members -/

section Members

variable {ι : Type} {X : Stop → Heap → Prop} {p : Program} {site : Site} {w : World}

variable {model : ModelId} {i : Nat} {t : Ty} {v : Value}

theorem getField?_of_definitionType? (h : p.definitionType? (.field model i) = some t) :
    ∃ f, p.getField? model i = some f ∧ f.type = t :=
  Option.map_eq_some_iff.mp h

/-- A variable that is in scope has its value. Only a local can be read too early. -/
theorem readDefinition_safe {d : Definition} (hd : d.InScope p site)
    (ht : p.definitionType? d = some t) :
    Safe X p site w (fun _ : ι => readDefinition p d) fun w' v => HasType w'.inner v t := by
  cases d with
  | constant id =>
    obtain ⟨c, hc, rfl⟩ := Option.map_eq_some_iff.mp ht
    intro s hs
    obtain ⟨v, hv, htyped⟩ := hs.constants hc (.inl hd.1)
    have hread : readDefinition p (.constant id) s = .ok v s := by
      rw [readDefinition, Safe.get_bind, hv]
      rfl
    exact .ok (fun _ => hread) ⟨w, .refl hs, htyped⟩
  | argument function i =>
    obtain ⟨q, hq, rfl⟩ := Option.map_eq_some_iff.mp ht
    obtain ⟨g, hg, hi⟩ := Option.bind_eq_some_iff.mp hq
    unfold readDefinition
    refine .bind .frame fun w' f _ hf => ?_
    have htype : (g.parameters.map (·.type))[i]? = some q.type := by
      rw [List.getElem?_map, hi]
      rfl
    obtain ⟨v, hv, htyped⟩ := forall₂_getElem? (hf.arguments hd.1 hg) htype
    rw [hv]
    exact .pure htyped
  | field model i =>
    obtain ⟨f, hf, rfl⟩ := getField?_of_definitionType? ht
    unfold readDefinition
    refine .bind (.receiver hd.1) fun w' r _ hr => ?_
    exact .getField hr.2 hf
  | binding id =>
    obtain ⟨l, hl, rfl⟩ := Option.map_eq_some_iff.mp ht
    unfold readDefinition
    refine .bind .frame fun w' f _ hf => ?_
    cases hv : f.locals.lookup id with
    | some v => exact .pure (hf.locals hv hl)
    | none =>
      -- its declaration need not have run
      exact .ofOption_bind hl (.fault (.localUnset _))

theorem fieldOf_safe (hv : HasType w.inner v (.model model))
    (ht : p.definitionType? (.field model i) = some t) :
    Safe X p site w (fun _ : ι => fieldOf v i) fun w' v => HasType w'.inner v t := by
  obtain ⟨f, hf, rfl⟩ := getField?_of_definitionType? ht
  cases hv with
  | null _ => exact .fault .nullDereference
  | object ha => exact .getField ha hf

theorem elementsOf_safe {item : Ty} (hv : HasType w.inner v (.set item)) :
    Safe X p site w (fun _ : ι => elementsOf v)
      fun w' items => ∀ v ∈ items, HasType w'.inner v item := by
  cases hv with
  | null _ => exact .fault (.nullGot "set")
  | set ha => exact .bind (.lookSet ha) fun _ _ _ hitems => .pure hitems.mem_toList

theorem lengthOf_safe {kind : LengthKind} (ht : Measurable t kind) (hv : HasType w.inner v t) :
    Safe X p site w (fun _ : ι => lengthOf v) fun w' v => HasType w'.inner v .int := by
  cases hv with
  | null _ => exact .fault (.nullGot "string or container")
  | string s => exact .ofExcept (lengthValue_answers _)
  | list ha => exact .bind (.lookList ha) fun _ _ _ _ => .ofExcept (lengthValue_answers _)
  | set ha => exact .bind (.lookSet ha) fun _ _ _ _ => .ofExcept (lengthValue_answers _)
  | map ha => exact .bind (.lookMap ha) fun _ _ _ _ => .ofExcept (lengthValue_answers _)
  | _ => cases ht

end Members

/-! ## Operations that may run code -/

section Operations

variable {ι : Type} {p : Program} (S : Setting p ι) {site : Site} {w : World}

variable {output : Primitive} {a : Address} {key : Value} {s : State}

theorem evalUnary_safe {op : UnaryOp} {t : Ty} {v : Value} (hcomparable : S.comparable t)
    (ht : unaryOutput p op t = .ok output) (hv : HasType w.inner v t) :
    Safe S.unfinished p site w (fun i => evalUnary (S.env i) op v)
      fun w' v => HasType w'.inner v (.primitive output) := by
  have ht := unaryOutput_eq_ok.mp ht
  by_cases hop : op = .hash
  · subst hop
    have houtput : output = .int := by
      cases t with
      | primitive t =>
        cases t <;> first | exact (Option.some.inj ht).symm | cases ht
      | map key value => cases ht
      | list | set | model => exact (Option.some.inj ht).symm
    subst houtput
    exact .bind (S.hash hcomparable hv) fun _ n _ _ => .pure (.int n)
  · have heval (env : Env) : evalUnary env op v = Exec.ofExcept (applyUnary op v) := by
      cases op <;> first | rfl | exact (hop rfl).elim
    simp only [heval]
    exact .ofExcept (applyUnary_answers hop ht hv)

theorem evalBinary_safe {op : BinaryOp} {l r : Value} {tl tr : Ty} (hcl : S.comparable tl)
    (hcr : S.comparable tr) (hl : HasType w.inner l tl) (hr : HasType w.inner r tr)
    (ho : if op.isEquality = true then output = .bool else binaryOutput p op tl tr = .ok output) :
    Safe S.unfinished p site w (fun i => evalBinary (S.env i) op l r)
      fun w' v => HasType w'.inner v (.primitive output) := by
  by_cases hop : op.isEquality = true
  · rw [if_pos hop] at ho
    subst ho
    cases op with
    | equals | notEqual => exact .bind (S.equal hcl hcr hl hr) fun _ b _ _ => .pure (.bool _)
    | _ => cases hop
  · rw [if_neg hop] at ho
    obtain ⟨l', r', table, rfl, rfl, htable, ho⟩ := binaryOutput_eq_ok.mp ho
    have hop := Bool.eq_false_iff.mpr hop
    have heval (env : Env) : evalBinary env op l r = Exec.ofExcept (applyBinary op l r) := by
      cases op <;> first | rfl | cases hop
    simp only [heval]
    exact .ofExcept (applyBinary_answers hop htable ho hl hr)

/-! ### Lookups -/

theorem lookupList_safe {item : Ty} (ha : w.inner.lists a = some item)
    (hk : HasType w.inner key .int) :
    Safe S.unfinished p site w (fun i => lookupValue (S.env i) .list (.list a) key)
      fun w' v => HasType w'.inner v item := by
  unfold lookupValue
  refine .bind (asInt_safe hk) fun w1 index hle1 _ => ?_
  refine .bind (.lookList (hle1.inner.lists _ _ ha)) fun w2 items _ hitems => ?_
  refine .bind (checkedIndex_safe index items.size) fun w3 slot hle3 _ => ?_
  cases hv : items[slot]? with
  | none => exact .fault (.indexOutOfBounds _ _)
  | some v => exact .pure ((hitems v (Array.mem_of_getElem? hv)).mono hle3.inner)

theorem lookupString_safe (text : String) (hk : HasType w.inner key .int) :
    Safe S.unfinished p site w (fun i => lookupValue (S.env i) .string (.string text) key)
      fun w' v => HasType w'.inner v .rune := by
  unfold lookupValue
  refine .bind (asInt_safe hk) fun w1 index _ _ => ?_
  refine .bind (checkedIndex_safe index text.toList.length) fun w2 slot _ _ => ?_
  cases text.toList[slot]? with
  | none => exact .fault (.indexOutOfBounds _ _)
  | some c => exact .pure (.rune c)

/-- A key that is missing is named in the fault, if it has a text. -/
theorem lookupMap_safe {key value : Ty} {k : Value} (hkey : S.comparable key)
    (ha : w.inner.maps a = some (key, value)) (hk : HasType w.inner k key) (hs : Ready p site w s)
    (hmissing : ∀ s', (∀ i, findKey (S.env i).equal (s.heap.map a).toList k s = .ok none s') →
      s'.heap.ContainsItself k → S.unfinished (.endless a k) s'.heap) :
    SafeAt S.unfinished p site w s (fun i => lookupValue (S.env i) .map (.map a) k)
      fun w' v => HasType w'.inner v value := by
  have hentries := hs.heap.inner.entries_map ha
  unfold lookupValue
  refine .look_bind (SafeAt.bind (findKey_safe (S.equal hkey hkey) hk hentries.mem_toList s hs) ?_)
  intro w1 found s1 hrun hkeeps hfound
  cases found with
  | some slot =>
    have hlt : slot < (s.heap.map a).size := hfound slot rfl
    have htyped := (hentries _ (Array.getElem_mem hlt)).2
    refine Safe.ofOption_bind (Array.getElem?_eq_getElem hlt) ?_ s1 hkeeps.ready
    exact .pure (htyped.mono hkeeps.le.inner)
  | none =>
    refine Ends.look_bind ?_
    cases htext : text? s1.heap k with
    | some text => exact Safe.fault (.missingKey text) s1 hkeeps.ready
    | none =>
      exact .error (fun _ => rfl)
        ⟨⟨.endless a k, fun _ => hmissing s1 hrun (text?_eq_none_iff.mp htext)⟩, w1,
          .refl hkeeps.ready⟩

theorem lookupValue_safe {container : Value} {tc tk output : Ty} {kind : LookupKind}
    (hkey : S.comparable tk) (ht : lookupType p tc tk = .ok (kind, output))
    (hc : HasType w.inner container tc) (hk : HasType w.inner key tk) (hs : Ready p site w s)
    (hmissing : ∀ a value s', container = .map a → w.inner.maps a = some (tk, value) →
      (∀ i, findKey (S.env i).equal (s.heap.map a).toList key s = .ok none s') →
        s'.heap.ContainsItself key → S.unfinished (.endless a key) s'.heap) :
    SafeAt S.unfinished p site w s (fun i => lookupValue (S.env i) kind container key)
      fun w' v => HasType w'.inner v output := by
  obtain ⟨rfl, rfl, rfl⟩ | ⟨rfl, rfl⟩ | ⟨rfl, rfl, rfl, rfl⟩ := lookupType_eq_ok.mp ht
  · cases hc with
    | null _ => exact Safe.fault .nullDereference s hs
    | list ha => exact lookupList_safe S ha hk s hs
  · cases hc with
    | null _ => exact Safe.fault .nullDereference s hs
    | map ha => exact lookupMap_safe S hkey ha hk hs fun s' => hmissing _ _ s' rfl ha
  · cases hc with
    | null _ => exact Safe.fault .nullDereference s hs
    | string text => exact lookupString_safe S text hk s hs

end Operations

/-! ## Expressions -/

/-- An expression that evaluates to a value of its type. -/
structure EvalSafe {p : Program} {ι : Type} (S : Setting p ι) (site : Site) (e : Expr) :
    Prop where
  comparable : ∀ {t}, typeOf p e = .ok t → S.comparable t
  safe : ∀ w {t}, typeOf p e = .ok t →
    Safe S.unfinished p site w (fun i => eval (S.env i) e) fun w' v => HasType w'.inner v t

section Eval

variable {p : Program} {ι : Type} {S : Setting p ι} {site : Site}

variable {es : List Expr} {item : Ty} {w : World} {a : Address}

theorem evalAll_safe (h : ∀ e ∈ es, EvalSafe S site e) {ts : List Ty}
    (hts : es.map (typeOf p) = ts.map .ok) (w : World) :
    Safe S.unfinished p site w (fun i => evalAll (S.env i) es)
      fun w' vs => AllTyped w'.inner vs ts := by
  induction es generalizing ts w with
  | nil =>
    cases ts with
    | nil => exact .pure .nil
    | cons t ts => cases hts
  | cons e rest ih =>
    cases ts with
    | nil => cases hts
    | cons t ts =>
      obtain ⟨he, hrest⟩ := List.forall_mem_cons.mp h
      simp only [List.map_cons, List.cons.injEq] at hts
      unfold evalAll
      refine .bind (he.safe w hts.1) fun w1 v _ hv => ?_
      refine .bind (ih hrest hts.2 w1) fun w2 vs hle hvs => ?_
      exact .pure (.cons (hv.mono hle.inner) hvs)

/-- The items of a literal all have the element type. -/
theorem evalItems_safe (h : ∀ e ∈ es, EvalSafe S site e) (hts : ∀ e ∈ es, typeOf p e = .ok item)
    (w : World) :
    Safe S.unfinished p site w (fun i => evalAll (S.env i) es)
      fun w' vs => ∀ v ∈ vs, HasType w'.inner v item := by
  have hmap : es.map (typeOf p) = (List.replicate es.length item).map .ok := by
    rw [List.map_replicate, List.map_eq_replicate_iff]
    exact hts
  exact (evalAll_safe h hmap w).imp fun _ _ _ hvs => forall_mem_of_replicate hvs

/-- A receiver that is not null is an instance of its model. -/
theorem evalReceiver_safe {receiver : Option Expr} (h : ∀ e ∈ receiver.toList, EvalSafe S site e)
    {owner : Option ModelId}
    (hts : receiver.map (typeOf p) = owner.map fun model => .ok (.model model)) (w : World) :
    Safe S.unfinished p site w (fun i => evalReceiver (S.env i) receiver)
      fun w' v? => ∀ model, owner = some model →
        ∃ a, v? = some (.object model a) ∧ w'.inner.objects a = some model := by
  cases receiver with
  | none =>
    cases owner with
    | none => exact .pure (by rintro _ ⟨⟩)
    | some model => cases hts
  | some e =>
    cases owner with
    | none => cases hts
    | some model =>
      have ht : typeOf p e = .ok (.model model) := Option.some.inj hts
      unfold evalReceiver
      refine .bind ((h e (Option.mem_toList.mpr rfl)).safe w ht) fun w1 v _ hv => ?_
      cases hv with
      | null _ => exact .fault .nullDereference
      | @object a _ ha =>
        refine .pure fun model' hmodel => ?_
        cases hmodel
        exact ⟨a, rfl, ha⟩

theorem evalElements_safe (h : ∀ e ∈ es, EvalSafe S site e)
    (hts : ∀ e ∈ es, typeOf p e = .ok item) (ha : w.inner.sets a = some item) :
    Safe S.unfinished p site w (fun i => evalElements (S.env i) a es) fun _ _ => True := by
  induction es generalizing w with
  | nil => exact .pure trivial
  | cons e rest ih =>
    obtain ⟨he, hrest⟩ := List.forall_mem_cons.mp h
    obtain ⟨ht, hts⟩ := List.forall_mem_cons.mp hts
    unfold evalElements
    refine .bind (he.safe w ht) fun w1 v hle1 hv => ?_
    have ha1 := hle1.inner.sets _ _ ha
    refine .bind (addElement_safe S (he.comparable ht) ha1 hv) fun w2 _ hle2 _ => ?_
    exact ih hrest hts (hle2.inner.sets _ _ ha1)

theorem evalEntries_safe {entries : List (Expr × Expr)}
    (h : ∀ e ∈ entries, EvalSafe S site e.1 ∧ EvalSafe S site e.2) {key value : Ty}
    (hts : ∀ e ∈ entries, typeOf p e.1 = .ok key ∧ typeOf p e.2 = .ok value)
    (ha : w.inner.maps a = some (key, value)) :
    Safe S.unfinished p site w (fun i => evalEntries (S.env i) a entries) fun _ _ => True := by
  induction entries generalizing w with
  | nil => exact .pure trivial
  | cons e rest ih =>
    obtain ⟨he, hrest⟩ := List.forall_mem_cons.mp h
    obtain ⟨ht, hts⟩ := List.forall_mem_cons.mp hts
    unfold evalEntries
    refine .bind (he.1.safe w ht.1) fun w1 k hle1 hk => ?_
    refine .bind (he.2.safe w1 ht.2) fun w2 v hle2 hv => ?_
    have ha2 := hle2.inner.maps _ _ (hle1.inner.maps _ _ ha)
    refine .bind (putEntry_safe S (he.1.comparable ht.1) ha2 (hk.mono hle2.inner) hv) ?_
    exact fun w3 _ hle3 _ => ih hrest hts (hle3.inner.maps _ _ ha2)

end Eval

/-! ### Calls -/

section Calls

variable {p : Program}

theorem callFunction_eq {env : Env} (hprogram : env.program = p) {function : FunctionId}
    {f : Function} (hf : p.getFunction? function = some f) (receiver : Option Value)
    (arguments : List Value) :
    callFunction env function receiver arguments =
      env.invoke f.name f.body { receiver, arguments } := by
  unfold callFunction
  rw [hprogram, hf]
  exact pure_bind f _

/-- A call gives its callee a frame that fits. -/
theorem callFrame_typed {function : FunctionId} {f : Function} {receiver : Option Value}
    {arguments : List Value} {τ : Typing} (hf : p.getFunction? function = some f)
    (hreceiver : ∀ model, f.owner = some model →
      ∃ a, receiver = some (.object model a) ∧ τ.objects a = some model)
    (harguments : AllTyped τ arguments (f.parameters.map (·.type))) :
    FrameTyped p (some (.function function)) τ { receiver, arguments } := by
  refine ⟨?_, ?_, by rintro _ _ _ ⟨⟩⟩
  · intro model hmodel
    rw [Option.bind_some, Program.owner?, hf, Option.bind_some] at hmodel
    exact hreceiver model hmodel
  · intro id g hid hg
    cases hid
    cases hf.symm.trans hg
    exact harguments

/-- A function whose calls give values of the type that it returns. -/
def FunctionSafe {ι : Type} (S : Setting p ι) (id : FunctionId) : Prop :=
  ∀ {f w receiver arguments},
    p.getFunction? id = some f →
    (∀ model, f.owner = some model →
      ∃ a, receiver = some (.object model a) ∧ w.inner.objects a = some model) →
    AllTyped w.inner arguments (f.parameters.map (·.type)) →
      Calls S.unfinished p w (fun i => callFunction (S.env i) id receiver arguments)
        fun w' v => HasType w'.inner v f.returnType

theorem EnvSafe.function {env : Env} (henv : EnvSafe p env) (hp : p.Sound) (id : FunctionId) :
    FunctionSafe (henv.setting hp) id := by
  intro f w receiver arguments hf hreceiver harguments
  have hbody : p.body? (.function id) = some f.body := by
    rw [Program.body?, hf, Option.map_some]
  have hreturn : p.callableReturnType? (.function id) = some f.returnType := by
    rw [Program.callableReturnType?, hf, Option.map_some]
  show Calls _ _ _ (fun _ : Unit => callFunction env id receiver arguments) _
  rw [callFunction_eq henv.program hf]
  exact henv.invoke f.name hbody hreturn (callFrame_typed hf hreceiver harguments)

theorem evalCall_safe {ι : Type} {S : Setting p ι} {site : Site} {receiver : Option Expr}
    {arguments : List Expr} {function : FunctionId} {returnType : Ty}
    (hc : CallAgrees p receiver arguments function returnType) (hsite : site.callable.isSome)
    (hr : ∀ e ∈ receiver.toList, EvalSafe S site e) (ha : ∀ e ∈ arguments, EvalSafe S site e)
    (hfunction : FunctionSafe S function) (w : World) :
    Safe S.unfinished p site w (fun i => do
      let receiver ← evalReceiver (S.env i) receiver
      let arguments ← evalAll (S.env i) arguments
      callFunction (S.env i) function receiver arguments)
      fun w' v => HasType w'.inner v returnType := by
  obtain ⟨f, hf, rfl, harguments, hreceiver⟩ := hc
  have harguments : arguments.map (typeOf p) = (f.parameters.map (·.type)).map .ok := by
    rw [harguments, List.map_map]
    rfl
  -- what the arguments do comes after the receiver is known, so it is carried over
  refine .bind (evalReceiver_safe hr hreceiver w) fun w1 receiver' _ hreceiver' => ?_
  refine .bind (evalAll_safe ha harguments w1) fun w2 values hle hvalues => ?_
  refine .call hsite (hfunction hf (fun model hmodel => ?_) hvalues)
  obtain ⟨a, hr, ha⟩ := hreceiver' model hmodel
  exact ⟨a, hr, hle.inner.objects _ _ ha⟩

end Calls

/-! ### Binary operators -/

section Binary

variable {p : Program}

variable {op : BinaryOp} {tl tr : Ty} {output : Primitive}

theorem binaryOutput_equality (hop : op.isEquality = true)
    (h : binaryOutput p op tl tr = .ok output) : output = .bool := by
  obtain ⟨l, r, table, _, _, htable, ho⟩ := binaryOutput_eq_ok.mp h
  cases op with
  | equals | notEqual =>
    cases l <;> cases r <;> cases htable <;> first | exact (Option.some.inj ho).symm | cases ho
  | _ => cases hop

/-- An equality gives a truth value, with or without a `null` on one side. -/
theorem binaryOutput_of_agrees {nulls : Bool}
    (h : if (op.isEquality && nulls) = true then tl = tr ∧ output = .bool
      else binaryOutput p op tl tr = .ok output) :
    if op.isEquality = true then output = .bool else binaryOutput p op tl tr = .ok output := by
  by_cases hop : op.isEquality = true
  · rw [if_pos hop]
    by_cases hnull : (op.isEquality && nulls) = true
    · rw [if_pos hnull] at h
      exact h.2
    · rw [if_neg hnull] at h
      exact binaryOutput_equality hop h
  · have hnull : ¬(op.isEquality && nulls) = true := by
      rw [Bool.eq_false_iff.mpr hop, Bool.false_and]
      exact Bool.false_ne_true
    rw [if_neg hnull] at h
    rw [if_neg hop]
    exact h

theorem binaryOutput_connective (hop : op = .and ∨ op = .or)
    (h : binaryOutput p op tl tr = .ok output) : tl = .bool ∧ tr = .bool ∧ output = .bool := by
  obtain ⟨l, r, table, rfl, rfl, htable, ho⟩ := binaryOutput_eq_ok.mp h
  obtain rfl | rfl := hop <;> cases l <;> cases r <;> cases htable <;>
    first | exact ⟨rfl, rfl, (Option.some.inj ho).symm⟩ | cases ho

section Operands

variable {ι : Type} {site : Site}

theorem truth_safe {X : Stop → Heap → Prop} {w : World} {act : ι → Exec Value}
    (h : Safe X p site w act fun w' v => HasType w'.inner v .bool) :
    Safe X p site w (fun i => truth (act i)) fun _ _ => True :=
  .bind h fun _ _ _ hv => asBool_safe hv

variable {S : Setting p ι} {left right : Expr} (hl : EvalSafe S site left)
  (hr : EvalSafe S site right)

include hl hr

/-- The right operand of a connective may be left out. -/
theorem evalConnective_safe {op : BinaryOp} (hop : op = .and ∨ op = .or)
    (htl : typeOf p left = .ok .bool) (htr : typeOf p right = .ok .bool) (w : World) :
    Safe S.unfinished p site w
      (fun i => evalOperands (S.env i) op (eval (S.env i) left) (eval (S.env i) right))
      fun w' v => HasType w'.inner v .bool := by
  have hright (w : World) : Safe S.unfinished p site w
      (fun i => (do return .bool (← truth (eval (S.env i) right)) : Exec Value))
      fun w' v => HasType w'.inner v .bool :=
    .bind (truth_safe (hr.safe w htr)) fun _ b _ _ => .pure (.bool b)
  obtain rfl | rfl := hop
  · refine .bind (truth_safe (hl.safe w htl)) fun w1 b _ _ => ?_
    cases b with
    | true => exact hright w1
    | false => exact .pure (.bool false)
  · refine .bind (truth_safe (hl.safe w htl)) fun w1 b _ _ => ?_
    cases b with
    | true => exact .pure (.bool true)
    | false => exact hright w1

theorem evalOperands_safe {op : BinaryOp} {tl tr : Ty} {output : Primitive}
    (htl : typeOf p left = .ok tl) (htr : typeOf p right = .ok tr)
    (ho : if op.isEquality = true then output = .bool else binaryOutput p op tl tr = .ok output)
    (w : World) :
    Safe S.unfinished p site w
      (fun i => evalOperands (S.env i) op (eval (S.env i) left) (eval (S.env i) right))
      fun w' v => HasType w'.inner v (.primitive output) := by
  by_cases hop : op = .and ∨ op = .or
  · have hequality : op.isEquality = false := by obtain rfl | rfl := hop <;> rfl
    rw [hequality, if_neg Bool.false_ne_true] at ho
    obtain ⟨rfl, rfl, rfl⟩ := binaryOutput_connective hop ho
    exact evalConnective_safe hl hr hop htl htr w
  · have heval (env : Env) (l r : Exec Value) : evalOperands env op l r =
        l >>= fun l => r >>= fun r => evalBinary env op l r := by
      cases op <;> first | rfl | exact (hop (.inl rfl)).elim | exact (hop (.inr rfl)).elim
    simp only [heval]
    refine .bind (hl.safe w htl) fun w1 l _ hvl => ?_
    refine .bind (hr.safe w1 htr) fun w2 r hle hvr => ?_
    exact evalBinary_safe S (hl.comparable htl) (hr.comparable htr) (hvl.mono hle.inner) hvr ho

end Operands

end Binary

/-! ### All expressions -/

/-- What a node asks of the environments besides its parts: a call asks for its function, and a
lookup for an answer if its key is missing. -/
structure Expr.Served {p : Program} {ι : Type} (S : Setting p ι) (site : Site) (e : Expr) :
    Prop where
  comparable : S.comparable e.stated
  call : ∀ {receiver arguments id t},
    e = .call receiver arguments id t → FunctionSafe S id
  lookup : ∀ {container key kind t}, e = .lookup container key kind t →
    EvalSafe S site container → EvalSafe S site key → ∀ w,
      Safe S.unfinished p site w (fun i => eval (S.env i) e) fun w' v => HasType w'.inner v t

variable {p : Program} {site : Site} {e : Expr}

/-- Evaluation of a sound expression is safe. The induction goes over the nodes of the
expression. -/
theorem eval_safe {ι : Type} {S : Setting p ι} (he : e.All (Expr.Sound p site))
    (hserved : e.All (Expr.Served S site)) : EvalSafe S site e := by
  induction he with
  | @intro e here _ ih =>
    obtain ⟨hserved, hbelow⟩ := hserved
    have ih (c : Expr) (hc : c ∈ e.children) : EvalSafe S site c := ih c hc (hbelow c hc)
    obtain ⟨⟨htyped, hagrees⟩, hscope⟩ := here
    -- the type of a node is the one that it states
    have hstated {t : Ty} (ht : typeOf p e = .ok t) : t = e.stated :=
      Except.ok.inj (ht.symm.trans htyped)
    refine ⟨fun ht => hstated ht ▸ hserved.comparable, fun w t ht => ?_⟩
    obtain rfl := hstated ht
    cases e with
    | bool b => exact .pure (.bool b)
    | int n => exact .pure (.int n)
    | rune c => exact .pure (.rune c)
    | string s => exact .pure (.string s)
    | list items item =>
      unfold eval
      refine .bind (evalItems_safe ih hagrees.2 w) fun w1 vs _ hvs => ?_
      refine .bind (.newList fun v hv => hvs v (List.mem_toArray.mp hv)) fun w2 a _ ha => ?_
      exact .pure (.list ha)
    | set items item =>
      unfold eval
      refine .bind (.newSet (.empty w.inner item)) fun w1 a _ ha => ?_
      refine .bind (evalElements_safe ih hagrees.2 ha) fun w2 _ hle _ => ?_
      exact .pure (.set (hle.inner.sets _ _ ha))
    | map entries key value =>
      unfold eval
      refine .bind (.newMap (.empty w.inner (key, value))) fun w1 a _ ha => ?_
      refine .bind (evalEntries_safe (fun e he => ?_) hagrees.2 ha) fun w2 _ hle _ => ?_
      · exact ⟨ih _ (List.mem_flatMap.mpr ⟨e, he, List.mem_cons_self⟩),
          ih _ (List.mem_flatMap.mpr ⟨e, he, List.mem_cons_of_mem _ List.mem_cons_self⟩)⟩
      · exact .pure (.map (hle.inner.maps _ _ ha))
    | emptyList item =>
      exact .bind (.newList (.empty w.inner item)) fun w1 a _ ha => .pure (.list ha)
    | emptySet item =>
      exact .bind (.newSet (.empty w.inner item)) fun w1 a _ ha => .pure (.set ha)
    | emptyMap key value =>
      exact .bind (.newMap (.empty w.inner (key, value))) fun w1 a _ ha => .pure (.map ha)
    | call receiver arguments function returnType =>
      exact evalCall_safe hagrees hscope.1 (fun e he => ih e (List.mem_append_left _ he))
        (fun e he => ih e (List.mem_append_right _ he)) (hserved.call rfl) w
    | lookup container key kind output =>
      obtain ⟨ihc, ihk⟩ := List.forall_mem_cons.mp ih
      exact hserved.lookup rfl ihc (List.forall_mem_singleton.mp ihk) w
    | property receiver field output =>
      exact .bind ((List.forall_mem_singleton.mp ih).safe w hagrees.1) fun w1 v _ hv =>
        fieldOf_safe hv hagrees.2
    | contains container value =>
      obtain ⟨item, hc, hv⟩ := hagrees
      obtain ⟨ihc, ihv⟩ := List.forall_mem_cons.mp ih
      have ihv := List.forall_mem_singleton.mp ihv
      have hitem := ihv.comparable hv
      unfold eval
      refine .bind (ihc.safe w hc) fun w1 c _ htc => ?_
      refine .bind (elementsOf_safe htc) fun w2 items _ hitems => ?_
      refine .bind (ihv.safe w2 hv) fun w3 v hle htv => ?_
      refine .bind (position_safe (S.equal hitem hitem) htv fun v hv => (hitems v hv).mono hle.inner)
        fun w4 found _ _ => ?_
      exact .pure (.bool _)
    | new model =>
      obtain ⟨hsite, m, hm⟩ := hscope
      unfold eval
      simp only [S.program]
      refine .ofOption_bind hm ?_
      exact .bind (instantiate_safe hm hsite) fun w1 a _ ha => .pure (.object ha)
    | length operand kind =>
      obtain ⟨t, ht, hkind⟩ := hagrees
      exact .bind ((List.forall_mem_singleton.mp ih).safe w ht) fun w1 v _ hv =>
        lengthOf_safe (lengthKind_eq_ok.mp hkind) hv
    | unary op operand output =>
      obtain ⟨t, ht, houtput⟩ := hagrees
      have ih := List.forall_mem_singleton.mp ih
      exact .bind (ih.safe w ht) fun w1 v _ hv => evalUnary_safe S (ih.comparable ht) houtput hv
    | binary op left right output =>
      obtain ⟨tl, tr, hl, hr, houtput⟩ := hagrees
      obtain ⟨ihl, ihr⟩ := List.forall_mem_cons.mp ih
      exact evalOperands_safe ihl (List.forall_mem_singleton.mp ihr) hl hr
        (binaryOutput_of_agrees houtput) w
    | var definition output =>
      unfold eval
      simp only [S.program]
      exact readDefinition_safe hscope.1 hagrees
    | self model =>
      unfold eval
      refine .bind (.receiver hscope.1) fun w1 r _ hr => ?_
      obtain ⟨model', a⟩ := r
      obtain ⟨rfl, ha⟩ := hr
      exact .pure (.object ha)
    | null output => exact .pure (.null hagrees)
    | pop container item =>
      exact .bind ((List.forall_mem_singleton.mp ih).safe w hagrees) fun w1 v _ hv => .popList hv

/-- A single environment serves all nodes. -/
theorem EnvSafe.serves {env : Env} (henv : EnvSafe p env) (hp : p.Sound)
    (he : Expr.Sound p site e) : Expr.Served (henv.setting hp) site e := by
  refine ⟨trivial, fun _ => henv.function hp _, ?_⟩
  rintro container key kind t rfl hc hk w
  obtain ⟨⟨_, tc, tk, htc, htk, hlookup⟩, _⟩ := he
  unfold eval
  refine .bind (hc.safe w htc) fun w1 c _ hvc => ?_
  refine .bind (hk.safe w1 htk) fun w2 k hle hvk => ?_
  refine fun s hs => lookupValue_safe _ trivial hlookup (hvc.mono hle.inner) hvk hs ?_
  rintro _ _ _ _ _ _ hcycle _ _ ⟨⟩
  exact hcycle

end Scribe.Machine
