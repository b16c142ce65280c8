import Scribe.Proofs.OrderIndependence

/-!
# Where `void` may stand

`void` is what a function returns that gives no value. The annotations of parameters and fields are
checked, and constants hold no calls, so all of these have types of values. The type of a container
literal is not written down: it is the type of the elements. An element may be any expression, also
a call that returns nothing, and then the literal is a container of `void`. From there `void` gets
into the types of locals (`unitList_void`).

This is the only way. The type of an expression is one of values unless the expression is a call
that returns nothing (`Elab.yields`); and if no such call stands as an element, all locals and all
literals have types of values, and the other way round (`lower_valued`).
-/

namespace Scribe.Core

open Scribe.Lowering

/-! ## Literals -/

/-- A call that returns nothing. -/
def Expr.IsVoidCall (e : Expr) : Prop :=
  ∃ receiver arguments function, e = .call receiver arguments function .void

/-- The elements of a container literal, or its keys and values. -/
def Expr.elements : Expr → List Expr
  | .list items _ | .set items _ => items
  | .map entries _ _ => entries.flatMap fun e => [e.1, e.2]
  | _ => []

/-- The types that a container literal states for what it holds. -/
def Expr.elementTypes : Expr → List Ty
  | .list _ item | .set _ item | .emptyList item | .emptySet item => [item]
  | .map _ key value | .emptyMap key value => [key, value]
  | _ => []

/-- No element of a literal is a call that returns nothing. -/
def Expr.Filled (e : Expr) : Prop :=
  ∀ c ∈ e.elements, ¬c.IsVoidCall

/-- A literal is a container of values. -/
def Expr.HoldsValues (e : Expr) : Prop :=
  ∀ t ∈ e.elementTypes, t.Valued

/-- `P` holds of every expression in a statement, at any depth. -/
def Stmt.Throughout (P : Expr → Prop) (s : Stmt) : Prop :=
  s.All fun t => ∀ e ∈ t.operands, e.All P

/-- `P` holds of every expression in a program, at any depth. -/
structure Program.Throughout (p : Program) (P : Expr → Prop) : Prop where
  constants : ∀ {id c}, p.getConstant? id = some c → c.value.All P
  bodies : ∀ {callable body}, p.body? callable = some body → ∀ s ∈ body, s.Throughout P

/-- Constants, parameters and fields have types of values, and functions return values or
nothing. -/
structure Program.ValueTables (p : Program) : Prop where
  constants : ∀ {id c}, p.getConstant? id = some c → c.type.Valued
  parameters : ∀ {id f}, p.getFunction? id = some f → ∀ q ∈ f.parameters, q.type.Valued
  returnType : ∀ {id f}, p.getFunction? id = some f → f.returnType = .void ∨ f.returnType.Valued
  fields : ∀ {id m}, p.getModel? id = some m → ∀ f ∈ m.fields, f.type.Valued

/-- A local whose type is one of values. -/
def Program.ValueLocal (p : Program) (id : LocalId) : Prop :=
  ∃ l, p.getLocal? id = some l ∧ l.type.Valued

theorem Ty.Valued.ne_void {t : Ty} (h : t.Valued) : t ≠ .void := by
  rintro rfl
  exact h rfl

variable {e : Expr} {P : Stmt → Prop} {s : Stmt} {p p' : Program}

theorem Expr.IsVoidCall.stated (h : e.IsVoidCall) : e.stated = .void := by
  obtain ⟨_, _, _, rfl⟩ := h
  rfl

theorem Stmt.All.root (h : s.All P) : P s := by
  cases h with
  | intro here _ => exact here

theorem Stmt.All.inner (h : s.All P) : ∀ t ∈ s.children, t.All P := by
  cases h with
  | intro _ below => exact below

theorem Program.ValueLocal.grows {id : LocalId} (hid : p.ValueLocal id) (h : p.Grows p') :
    p'.ValueLocal id := by
  obtain ⟨l, hl, ht⟩ := hid
  exact ⟨l, h.locals hl, ht⟩

/-- What was there before has the types that it has later. -/
theorem Program.ValueTables.of_grows (hp' : p'.ValueTables) (h : p.Grows p') :
    p.ValueTables where
  constants hc := hp'.constants (h.constants hc)
  parameters hf := by
    obtain ⟨f', hf', hsame⟩ := h.functions hf
    rw [← hsame.parameters]
    exact hp'.parameters hf'
  returnType hf := by
    obtain ⟨f', hf', hsame⟩ := h.functions hf
    rw [← hsame.returnType]
    exact hp'.returnType hf'
  fields hm f hf := by
    obtain ⟨m', hm', hgrows⟩ := h.models hm
    exact hp'.fields hm' f (hgrows.fields.subset hf)

theorem Expr.elements_subset (e : Expr) : e.elements ⊆ e.children := by
  cases e with
  | list _ _ | set _ _ | map _ _ _ => exact List.Subset.refl _
  | _ => exact List.nil_subset _

/-- Where there is no call that returns nothing, none stands as an element. -/
theorem Expr.filled_of_no_voidCall (h : e.All fun x => ¬x.IsVoidCall) : e.All Expr.Filled := by
  induction h with
  | intro here below ih =>
    exact .intro (fun c hc => (below c (Expr.elements_subset _ hc)).root) ih

/-- Elements have the type that their literal states, so an element of a container of values is no
call that returns nothing. -/
theorem Expr.filled_of_holdsValues (h : e.All (Expr.Truthful p)) (hholds : e.All Expr.HoldsValues) :
    e.All Expr.Filled := by
  induction h with
  | @intro e here below ih =>
    refine .intro (fun c hc hcall => ?_) fun c hc => ih c hc (hholds.inner hc)
    have hvoid : typeOf p c = .ok .void := by
      rw [(below c (Expr.elements_subset _ hc)).root.typed, hcall.stated]
    have hheld := hholds.root
    have hagrees := here.agrees
    cases e with
    | list items item | set items item =>
      have hitem : item = .void := Except.ok.inj ((hagrees.2 c hc).symm.trans hvoid)
      exact (hheld item List.mem_cons_self).ne_void hitem
    | map entries key value =>
      obtain ⟨x, hx, hc⟩ := List.mem_flatMap.mp hc
      obtain ⟨hkey, hvalue⟩ := hagrees.2 x hx
      obtain rfl | hc := List.mem_cons.mp hc
      · exact (hheld key List.mem_cons_self).ne_void (Except.ok.inj (hkey.symm.trans hvoid))
      · cases List.mem_singleton.mp hc
        exact (hheld value (List.mem_cons_of_mem _ List.mem_cons_self)).ne_void
          (Except.ok.inj (hvalue.symm.trans hvoid))
    | _ => cases hc

theorem Stmt.filled_of_holdsValues {site : Site} (h : s.All (Stmt.Sound p site))
    (hholds : s.Throughout Expr.HoldsValues) : s.Throughout Expr.Filled := by
  induction h with
  | intro here below ih =>
    refine .intro (fun e he => ?_) fun t ht => ih t ht (hholds.inner t ht)
    refine Expr.filled_of_holdsValues ((here.operands e he).imp fun _ hs => hs.truthful) ?_
    exact hholds.root e he

/-! ## Statements that bind a local -/

/-- What binds a local. -/
def Stmt.BindsLocal (id : LocalId) : Stmt → Prop
  | .declare id' _ | .forEach id' _ _ _ _ => id' = id
  | _ => False

section Binders

variable {id : LocalId}

theorem blockBinders_append (xs ys : List Stmt) :
    blockBinders (xs ++ ys) = blockBinders xs ++ blockBinders ys := by
  induction xs with
  | nil => rfl
  | cons s rest ih => rw [List.cons_append, blockBinders, blockBinders, ih, List.append_assoc]

theorem mem_blockBinders {block : List Stmt} :
    id ∈ blockBinders block ↔ ∃ s ∈ block, id ∈ s.binders := by
  induction block with
  | nil => simp [blockBinders]
  | cons s rest ih => simp [blockBinders, ih]

theorem armBinders_eq (arms : List (Expr × List Stmt)) :
    armBinders arms = blockBinders (arms.flatMap (·.2)) := by
  induction arms with
  | nil => rfl
  | cons arm rest ih => rw [armBinders, List.flatMap_cons, blockBinders_append, ih]

theorem partBinders_eq (part : Option Stmt) : partBinders part = blockBinders part.toList := by
  cases part with
  | none => rfl
  | some s => exact (List.append_nil _).symm

theorem otherwiseBinders_eq (otherwise : Option (List Stmt)) :
    otherwiseBinders otherwise = blockBinders (otherwise.getD []) := by
  cases otherwise <;> rfl

/-- A local is bound by a statement itself or by one directly inside it. -/
theorem Stmt.mem_binders {s : Stmt} (h : id ∈ s.binders) :
    s.BindsLocal id ∨ id ∈ blockBinders s.children := by
  cases s with
  | declare id' value => exact .inl (List.mem_singleton.mp h).symm
  | conditional arms otherwise =>
    rw [Stmt.children, blockBinders_append, ← armBinders_eq, ← otherwiseBinders_eq]
    exact .inr h
  | forLoop start condition after body =>
    rw [Stmt.children, blockBinders_append, blockBinders_append, ← partBinders_eq, ← partBinders_eq]
    exact .inr h
  | forEach item iterable kind itemType body =>
    obtain rfl | h := List.mem_cons.mp h
    · exact .inl rfl
    · exact .inr h
  | _ => cases h

theorem Stmt.All.exists_binder {P : Stmt → Prop} {s : Stmt} (h : s.All P) (hid : id ∈ s.binders) :
    ∃ t, P t ∧ t.BindsLocal id := by
  induction h with
  | @intro s here _ ih =>
    obtain hself | hbelow := s.mem_binders hid
    · exact ⟨s, here, hself⟩
    · obtain ⟨t, ht, hid⟩ := mem_blockBinders.mp hbelow
      exact ih t ht hid

end Binders

/-- A local is what an equality compares with, or some body binds it. -/
theorem Program.mem_binders {p : Program} {id : LocalId} (h : id ∈ p.binders) :
    (∃ model, p.other? (.equality model) = some id) ∨
      ∃ callable body, p.body? callable = some body ∧ id ∈ blockBinders body := by
  rw [binders_eq] at h
  obtain ⟨callable, _, h⟩ := List.mem_flatMap.mp h
  obtain h | h := List.mem_append.mp h
  · cases callable with
    | equality model => exact .inl ⟨model, Option.mem_toList.mp h⟩
    | function _ => cases h
    | hashing _ => cases h
  · cases hbody : p.body? callable with
    | none =>
      rw [hbody] at h
      cases h
    | some body =>
      rw [hbody] at h
      exact .inr ⟨callable, body, hbody, h⟩

end Scribe.Core

namespace Scribe.Lowering

open Scribe.Core

/-! ## Expressions -/

theorem unaryResult?_ne_void {op : UnaryOp} {t : Ty} {output : Primitive}
    (h : unaryResult? op t = some output) : output ≠ .void := by
  rintro rfl
  unfold unaryResult? at h
  split at h <;> try cases h
  split at h <;> cases h

theorem binaryTable?_ne_void {l r output : Primitive} {op : BinaryOp}
    {table : BinaryOp → Option Primitive} (htable : binaryTable? l r = some table)
    (h : table op = some output) : output ≠ .void := by
  rintro rfl
  unfold binaryTable? at htable
  split at htable <;> cases htable <;> cases op <;> cases h

section Expr

variable {p : Program} {scope : Scope}

/-- What can be said of a lowered expression: its type is one of values unless it is a call that
returns nothing, and all literals in it are containers of values. -/
structure Yields (p : Program) (e : Expr) : Prop where
  typed : typeOf p e = .ok e.stated
  stated : e.stated.Valued ∨ e.IsVoidCall
  literals : e.All Expr.HoldsValues

namespace Yields

variable {e : Expr} {t : Ty}

theorem valued (h : Yields p e) (ht : typeOf p e = .ok t) (hvoid : t ≠ .void) : t.Valued := by
  have hstated : e.stated = t := Except.ok.inj (h.typed.symm.trans ht)
  rw [← hstated] at hvoid ⊢
  exact h.stated.resolve_right fun hcall => hvoid hcall.stated

theorem item (h : Yields p e) (ht : typeOf p e = .ok (.list t)) : t.Valued := by
  have hlist : (Ty.list t).Valued := h.valued ht (by rintro ⟨⟩)
  exact hlist

/-- An expression that is no literal. -/
theorem plain (typed : typeOf p e = .ok e.stated) (stated : e.stated.Valued ∨ e.IsVoidCall)
    (hnone : e.elementTypes = []) (hbelow : ∀ c ∈ e.children, c.All Expr.HoldsValues) :
    Yields p e := by
  refine ⟨typed, stated, .intro ?_ hbelow⟩
  rw [Expr.HoldsValues, hnone]
  exact List.forall_mem_nil _

end Yields

/-- The type that elements agree on is one of values if no element is a call that returns
nothing. -/
theorem valued_of_elements {es : List Expr} {t : Ty} (hne : es ≠ [])
    (htypes : ∀ e ∈ es, typeOf p e = .ok t) (hes : ∀ e ∈ es, Yields p e)
    (hfilled : ∀ e ∈ es, ¬e.IsVoidCall) : t.Valued := by
  obtain ⟨e, he⟩ := List.exists_mem_of_ne_nil es hne
  have hstated : e.stated = t := Except.ok.inj ((hes e he).typed.symm.trans (htypes e he))
  rw [← hstated]
  exact (hes e he).stated.resolve_right (hfilled e he)

theorem valued_of_definition {name : String} {d : Definition} {t : Ty} (hp : p.ValueTables)
    (hs : ∀ b ∈ scope.bindings, p.ValueLocal b.id) (hd : scope.resolve p name = .ok d)
    (ht : p.definitionType? d = some t) : t.Valued := by
  cases d with
  | constant id =>
    obtain ⟨k, hk, rfl⟩ := Option.map_eq_some_iff.mp ht
    exact hp.constants hk
  | argument function i =>
    obtain ⟨q, hq, rfl⟩ := Option.map_eq_some_iff.mp ht
    obtain ⟨f, hf, hi⟩ := Option.bind_eq_some_iff.mp hq
    exact hp.parameters hf q (List.mem_of_getElem? hi)
  | field model i =>
    obtain ⟨f, hf, rfl⟩ := Option.map_eq_some_iff.mp ht
    obtain ⟨m, hm, hi⟩ := Option.bind_eq_some_iff.mp hf
    exact hp.fields hm f (List.mem_of_getElem? hi)
  | binding id =>
    obtain ⟨l, hl, rfl⟩ := Option.map_eq_some_iff.mp ht
    obtain ⟨l', hl', hvalued⟩ := hs _ (Scope.mem_bindings_of_resolve hd)
    cases hl.symm.trans hl'
    exact hvalued

theorem valued_of_lowerValueType {spelling : Syntax.TypeExpr} {t : Ty}
    (h : lowerValueType p spelling = .ok t) : t.Valued := by
  obtain ⟨ht, hvoid⟩ := lowerValueType_eq_ok.mp h
  exact lowerType_valued ht hvoid

theorem returns_yields {receiver : Option Expr} {arguments : List Expr} {function : FunctionId}
    {f : Function} (hp : p.ValueTables) (hf : p.getFunction? function = some f) :
    f.returnType.Valued ∨ (Expr.call receiver arguments function f.returnType).IsVoidCall := by
  obtain hvoid | hvalued := hp.returnType hf
  · rw [hvoid]
    exact .inr ⟨_, _, _, rfl⟩
  · exact .inl hvalued

/-- `null` is no literal of a container. -/
theorem holdsValues_null (t : Ty) : (Expr.null t).All Expr.HoldsValues :=
  .intro (List.forall_mem_nil _) (List.forall_mem_nil _)

/-- An expression has a type of values unless it is a call that returns nothing, if no such call
stands as an element in it. -/
theorem Elab.yields {e : Syntax.Expr} {e' : Expr} (h : Elab p scope e e') (hp : p.ValueTables)
    (hs : ∀ b ∈ scope.bindings, p.ValueLocal b.id) (hfilled : e'.All Expr.Filled) :
    Yields p e' := by
  induction e' using Expr.nodeInduction generalizing e with
  | h e' ih =>
  have htyped := h.typed
  have hyields {c : Expr} {e0 : Syntax.Expr} (hc : c ∈ e'.children) (he0 : Elab p scope e0 c) :
      Yields p c := ih c hc he0 (hfilled.inner hc)
  have hliterals : ∀ c ∈ e'.children, c.All Expr.HoldsValues := by
    intro c hc
    obtain ⟨e0, he0⟩ | ⟨t, rfl⟩ := h.parts c hc
    · exact (hyields hc he0).literals
    · exact holdsValues_null t
  cases h with
  | bool _ | int _ | rune _ | string _ | callContains _ _ _ _ | contains _ _ _ _ | length _ _ _
  | nullLeft _ _ _ _ | nullRight _ _ _ _ =>
    exact .plain htyped (.inl (by rintro ⟨⟩)) rfl hliterals
  | new _ | self _ => exact .plain htyped (.inl trivial) rfl hliterals
  | list hes hitem | set hes hitem =>
    -- there is an element, and its type is that of all
    obtain ⟨hne, htypes⟩ := sharedType_items.mp hitem
    have hvalued := valued_of_elements hne htypes (fun c hc => ?_) hfilled.root
    · exact ⟨htyped, .inl hvalued, .intro (List.forall_mem_singleton.mpr hvalued) hliterals⟩
    · obtain ⟨e0, _, he0⟩ := hes.exists_source hc
      exact hyields hc he0
  | @map _ entries' key value hentries hkey hvalue =>
    obtain ⟨hne, hkeys⟩ := sharedType_keys.mp hkey
    obtain ⟨_, hvalues⟩ := sharedType_values.mp hvalue
    have helement {x : Expr × Expr} (hx : x ∈ entries') {c : Expr} (hc : c ∈ [x.1, x.2]) :
        Yields p c ∧ ¬c.IsVoidCall := by
      have hmem : c ∈ entries'.flatMap fun x => [x.1, x.2] := List.mem_flatMap.mpr ⟨x, hx, hc⟩
      obtain ⟨_, _, he | he⟩ := hentries.exists_source hmem
      · exact ⟨hyields hmem he, hfilled.root c hmem⟩
      · exact ⟨hyields hmem he, hfilled.root c hmem⟩
    have hmap {f : Expr × Expr → Expr} : entries'.map f ≠ [] := by rwa [ne_eq, List.map_eq_nil_iff]
    have hk : key.Valued := valued_of_elements hmap (List.forall_mem_map.mpr hkeys)
      (List.forall_mem_map.mpr fun x hx => (helement hx List.mem_cons_self).1)
      (List.forall_mem_map.mpr fun x hx => (helement hx List.mem_cons_self).2)
    have hsecond (x : Expr × Expr) : x.2 ∈ [x.1, x.2] := List.mem_cons_of_mem _ List.mem_cons_self
    have hv : value.Valued := valued_of_elements hmap (List.forall_mem_map.mpr hvalues)
      (List.forall_mem_map.mpr fun x hx => (helement hx (hsecond x)).1)
      (List.forall_mem_map.mpr fun x hx => (helement hx (hsecond x)).2)
    exact ⟨htyped, .inl ⟨hk, hv⟩, .intro (forall_mem_pair hk hv) hliterals⟩
  | emptyList hitem | emptySet hitem =>
    have hvalued := valued_of_lowerValueType hitem
    exact ⟨htyped, .inl hvalued, .intro (List.forall_mem_singleton.mpr hvalued) hliterals⟩
  | emptyMap hkey hvalue =>
    have hk := valued_of_lowerValueType hkey
    have hv := valued_of_lowerValueType hvalue
    exact ⟨htyped, .inl ⟨hk, hv⟩, .intro (forall_mem_pair hk hv) hliterals⟩
  | callFunction _ hf _ _ | callMethod _ _ _ hf _ _ =>
    exact .plain htyped (returns_yields hp hf) rfl hliterals
  | callPop hr ht | pop hr ht =>
    exact .plain htyped (.inl ((hyields List.mem_cons_self hr).item ht)) rfl hliterals
  | lookup ha _ hta _ hlookup =>
    have hcontainer := hyields List.mem_cons_self ha
    refine .plain htyped (.inl ?_) rfl hliterals
    obtain ⟨rfl, _, _⟩ | ⟨rfl, _⟩ | ⟨_, _, _, rfl⟩ := lookupType_eq_ok.mp hlookup
    · exact hcontainer.item hta
    · exact (hcontainer.valued hta (by rintro ⟨⟩)).2
    · rintro ⟨⟩
  | property _ _ hfield =>
    refine .plain htyped (.inl ?_) rfl hliterals
    obtain ⟨_, f, hf, rfl⟩ := resolveField_eq_ok hfield
    obtain ⟨m, hm, hi⟩ := Option.bind_eq_some_iff.mp hf
    exact hp.fields hm f (List.mem_of_getElem? hi)
  | unary _ _ houtput =>
    exact .plain htyped (.inl (unaryResult?_ne_void (unaryOutput_eq_ok.mp houtput))) rfl hliterals
  | binary _ _ _ _ houtput =>
    obtain ⟨_, _, table, _, _, htable, hop⟩ := binaryOutput_eq_ok.mp houtput
    exact .plain htyped (.inl (binaryTable?_ne_void htable hop)) rfl hliterals
  | var hd ht => exact .plain htyped (.inl (valued_of_definition hp hs hd ht)) rfl hliterals

end Expr

/-! ## Statements -/

theorem IsPart.holdsValues {p : Program} {scope : Scope} {e' : Expr} (h : IsPart p scope e')
    (hp : p.ValueTables) (hs : ∀ b ∈ scope.bindings, p.ValueLocal b.id)
    (hfilled : e'.All Expr.Filled) : e'.All Expr.HoldsValues := by
  obtain ⟨e, he⟩ | ⟨t, rfl⟩ := h
  · exact (he.yields hp hs hfilled).literals
  · exact holdsValues_null t

theorem ElabSimple.children {p : Program} {scope : Scope} {s : Syntax.Stmt} {s' : Stmt}
    (h : ElabSimple p scope s s') : s'.children = [] := by
  cases h <;> rfl

/-- A context in which all that a name can stand for has a type of values. -/
structure Context.Valued (c : Context) : Prop where
  tables : c.program.ValueTables
  bindings : ∀ b ∈ c.scope.bindings, c.program.ValueLocal b.id

namespace Context.Valued

variable {c c' : Context}

theorem push (h : c.Valued) {frame : Frame} (hframe : frame.bindings = []) :
    Context.Valued { c with scope := frame :: c.scope } := by
  refine ⟨h.tables, fun b hb => ?_⟩
  rw [Scope.bindings_cons, hframe] at hb
  exact h.bindings b hb

/-- Locals that are added leave a context as it should be if their types are types of values. -/
theorem after (h : c.Valued) {ids : List LocalId} (hadds : AddsLocals c.program c'.program ids)
    (hids : ∀ id ∈ ids, c'.program.ValueLocal id)
    (hbindings : ∀ b ∈ c'.scope.bindings, b ∈ c.scope.bindings ∨ b.id ∈ ids) : c'.Valued := by
  refine ⟨?_, fun b hb => ?_⟩
  · rw [hadds.same]
    exact ⟨h.tables.constants, h.tables.parameters, h.tables.returnType, h.tables.fields⟩
  · obtain hb | hb := hbindings b hb
    · exact (h.bindings b hb).grows hadds.grows
    · exact hids _ hb

end Context.Valued

mutual

/-- In a statement all literals are containers of values and all locals have types of values, if no
call that returns nothing stands as an element in it. -/
theorem ElabStmt.valued {c c' s s'} (h : ElabStmt c s s' c') (hc : c.Valued)
    (hfilled : s'.Throughout Expr.Filled) :
    s'.Throughout Expr.HoldsValues ∧ ∀ id ∈ s'.binders, c'.program.ValueLocal id := by
  have hoperands := hfilled.root
  cases h with
  | simple hs =>
    refine ⟨.intro (fun e he => ?_) ?_, ?_⟩
    · exact (hs.parts e he).holdsValues hc.tables hc.bindings (hoperands e he)
    · rw [hs.children]
      exact List.forall_mem_nil _
    · rw [hs.binders]
      exact List.forall_mem_nil _
  | declare hname he ht hvoid hbind =>
    have hvalue := he.yields hc.tables hc.bindings (hoperands _ List.mem_cons_self)
    refine ⟨.intro (List.forall_mem_singleton.mpr hvalue.literals) (List.forall_mem_nil _), ?_⟩
    refine List.forall_mem_singleton.mpr ⟨_, getLocal?_withLocal_self _ _, ?_⟩
    exact hvalue.valued ht hvoid
  | @conditional _ c1 _ _ arms' _ otherwise' hne harms hotherwise =>
    obtain ⟨hblocks, helse⟩ := List.forall_mem_append.mp hfilled.inner
    obtain ⟨harms', hids⟩ := harms.valued hc fun arm harm =>
      ⟨hoperands _ (List.mem_map_of_mem harm), fun s hs =>
        hblocks s (List.mem_flatMap.mpr ⟨arm, harm, hs⟩)⟩
    have hc1 : c1.Valued := hc.after harms.adds.1 hids fun b hb => by
      rw [harms.adds.2] at hb
      exact .inl hb
    obtain ⟨helse', hids'⟩ := hotherwise.valued hc1 helse
    refine ⟨.intro ?_ (List.forall_mem_append.mpr ⟨?_, helse'⟩),
      List.forall_mem_append.mpr ⟨?_, hids'⟩⟩
    · exact List.forall_mem_map.mpr fun arm harm => (harms' arm harm).1
    · intro s hs
      obtain ⟨arm, harm, hs⟩ := List.mem_flatMap.mp hs
      exact (harms' arm harm).2 s hs
    · exact fun id hid => (hids id hid).grows hotherwise.adds.1.grows
  | @forLoop _ c1 c2 c3 _ _ start' after' _ e' _ body' hstart he hte hafter hbody =>
    obtain ⟨hfirst, hrest⟩ := List.forall_mem_append.mp hfilled.inner
    obtain ⟨hlast, hblock⟩ := List.forall_mem_append.mp hrest
    obtain ⟨hstart', hids1⟩ := hstart.valued (hc.push rfl) hfirst
    have hc1 : c1.Valued :=
      Context.Valued.after (hc.push rfl) hstart.adds.1 hids1 hstart.mem_bindings
    have hcondition := he.yields hc1.tables hc1.bindings (hoperands _ List.mem_cons_self)
    obtain ⟨hafter', hids2⟩ := hafter.valued hc1 hlast
    have hc2 : c2.Valued := hc1.after hafter.adds.1 hids2 hafter.mem_bindings
    obtain ⟨hbody', hids3⟩ := hbody.valued (hc2.push rfl) hblock
    refine ⟨.intro (List.forall_mem_singleton.mpr hcondition.literals) ?_, ?_⟩
    · exact List.forall_mem_append.mpr ⟨hstart', List.forall_mem_append.mpr ⟨hafter', hbody'⟩⟩
    · refine List.forall_mem_append.mpr ⟨fun id hid => ?_, List.forall_mem_append.mpr ⟨?_, hids3⟩⟩
      · exact ((hids1 id hid).grows hafter.adds.1.grows).grows hbody.adds.1.grows
      · exact fun id hid => (hids2 id hid).grows hbody.adds.1.grows
  | @forEach _ c1 item _ e' t itemType kind _ body' hname he ht hkind hbody =>
    have hiterable := he.yields hc.tables hc.bindings (hoperands _ List.mem_cons_self)
    have hitem : itemType.Valued := by
      obtain ⟨rfl, _⟩ | ⟨rfl, _⟩ := iterableKind_eq_ok.mp hkind
      · exact hiterable.item ht
      · have hset : (Ty.set itemType).Valued := hiterable.valued ht (by rintro ⟨⟩)
        exact hset
    -- the block sees the item as one more local
    have hself : (c.program.withLocal ⟨item, itemType, .forEachItem⟩).ValueLocal
        ⟨c.program.locals.size⟩ := ⟨_, getLocal?_withLocal_self _ _, hitem⟩
    have hinner : Context.Valued ⟨c.program.withLocal ⟨item, itemType, .forEachItem⟩,
        .block [] :: .forEach ⟨item, ⟨c.program.locals.size⟩⟩ :: c.scope⟩ := by
      refine hc.after (.single _ _) (List.forall_mem_singleton.mpr hself) fun b hb => ?_
      rw [Scope.bindings_cons, Scope.bindings_cons] at hb
      obtain rfl | hb := List.mem_cons.mp hb
      · exact .inr List.mem_cons_self
      · exact .inl hb
    obtain ⟨hbody', hids⟩ := hbody.valued hinner hfilled.inner
    refine ⟨.intro (List.forall_mem_singleton.mpr hiterable.literals) hbody', ?_⟩
    exact List.forall_mem_cons.mpr ⟨hself.grows hbody.adds.1.grows, hids⟩

theorem ElabStmts.valued {c c' block block'} (h : ElabStmts c block block' c') (hc : c.Valued)
    (hfilled : ∀ s ∈ block', s.Throughout Expr.Filled) :
    (∀ s ∈ block', s.Throughout Expr.HoldsValues) ∧
      ∀ id ∈ blockBinders block', c'.program.ValueLocal id := by
  cases h with
  | nil => exact ⟨List.forall_mem_nil _, List.forall_mem_nil _⟩
  | cons hs hss =>
    obtain ⟨hfirst, hrest⟩ := List.forall_mem_cons.mp hfilled
    obtain ⟨hs', hids1⟩ := hs.valued hc hfirst
    obtain ⟨hss', hids2⟩ := hss.valued (hc.after hs.adds.1 hids1 hs.mem_bindings) hrest
    refine ⟨List.forall_mem_cons.mpr ⟨hs', hss'⟩, List.forall_mem_append.mpr ⟨?_, hids2⟩⟩
    exact fun id hid => (hids1 id hid).grows hss.adds.1.grows

theorem ElabPart.valued {c c' part part'} (h : ElabPart c part part' c') (hc : c.Valued)
    (hfilled : ∀ s ∈ part'.toList, s.Throughout Expr.Filled) :
    (∀ s ∈ part'.toList, s.Throughout Expr.HoldsValues) ∧
      ∀ id ∈ partBinders part', c'.program.ValueLocal id := by
  cases h with
  | none => exact ⟨List.forall_mem_nil _, List.forall_mem_nil _⟩
  | some hs =>
    obtain ⟨hs', hids⟩ := hs.valued hc (hfilled _ List.mem_cons_self)
    exact ⟨List.forall_mem_singleton.mpr hs', hids⟩

theorem ElabArms.valued {c c' arms arms'} (h : ElabArms c arms arms' c') (hc : c.Valued)
    (hfilled : ∀ arm ∈ arms', arm.1.All Expr.Filled ∧ ∀ s ∈ arm.2, s.Throughout Expr.Filled) :
    (∀ arm ∈ arms', arm.1.All Expr.HoldsValues ∧ ∀ s ∈ arm.2, s.Throughout Expr.HoldsValues) ∧
      ∀ id ∈ armBinders arms', c'.program.ValueLocal id := by
  cases h with
  | nil => exact ⟨List.forall_mem_nil _, List.forall_mem_nil _⟩
  | @cons _ c1 _ _ _ _ _ _ _ he hte hblock harms =>
    obtain ⟨⟨hcondition, hfirst⟩, hrest⟩ := List.forall_mem_cons.mp hfilled
    have he' := he.yields hc.tables hc.bindings hcondition
    obtain ⟨hblock', hids1⟩ := hblock.valued (hc.push rfl) hfirst
    have hc1 : Context.Valued { c1 with scope := c.scope } :=
      hc.after hblock.adds.1 hids1 fun b hb => .inl hb
    obtain ⟨harms', hids2⟩ := harms.valued hc1 hrest
    refine ⟨List.forall_mem_cons.mpr ⟨⟨he'.literals, hblock'⟩, harms'⟩,
      List.forall_mem_append.mpr ⟨?_, hids2⟩⟩
    exact fun id hid => (hids1 id hid).grows harms.adds.1.grows

theorem ElabOtherwise.valued {c c' otherwise otherwise'}
    (h : ElabOtherwise c otherwise otherwise' c') (hc : c.Valued)
    (hfilled : ∀ s ∈ otherwise'.getD [], s.Throughout Expr.Filled) :
    (∀ s ∈ otherwise'.getD [], s.Throughout Expr.HoldsValues) ∧
      ∀ id ∈ otherwiseBinders otherwise', c'.program.ValueLocal id := by
  cases h with
  | none => exact ⟨List.forall_mem_nil _, List.forall_mem_nil _⟩
  | some hblock => exact hblock.valued (hc.push rfl) hfilled

end

/-! ## Programs -/

/-- Constants hold no calls, so they have types of values. -/
theorem ConstantsOf.valued {p : Program} {cs : List Syntax.Constant} {ks : List Constant}
    (h : ConstantsOf p cs ks) (hp : p.ValueTables)
    (hcalls : ∀ k ∈ ks, k.value.All fun e => ¬e.IsVoidCall) :
    ∀ k ∈ ks, k.type.Valued ∧ k.value.All Expr.HoldsValues := by
  induction h with
  | nil => exact List.forall_mem_nil _
  | @cons p k k' ks ks' _ _ _ hvalue htype _ _ ih =>
    obtain ⟨hfirst, hrest⟩ := List.forall_mem_cons.mp hcalls
    have hyields := hvalue.yields hp (List.forall_mem_nil _) (Expr.filled_of_no_voidCall hfirst)
    have hstated : k'.value.stated = k'.type := Except.ok.inj (hyields.typed.symm.trans htype)
    have hvalued : k'.type.Valued := hstated ▸ hyields.stated.resolve_right hfirst.root
    refine List.forall_mem_cons.mpr ⟨⟨hvalued, hyields.literals⟩, ih ?_ hrest⟩
    refine ⟨fun {id c} hc => ?_, hp.parameters, hp.returnType, hp.fields⟩
    obtain hc | hc := Array.mem_append.mp (Array.mem_of_getElem? hc)
    · obtain ⟨i, hi⟩ := Array.getElem?_of_mem hc
      exact hp.constants (show p.getConstant? ⟨i⟩ = some c from hi)
    · cases List.mem_singleton.mp (List.mem_toArray.mp hc)
      exact hvalued

section Lowered

variable {m : Syntax.Module} {limit : Option Nat} {p : Program}

theorem Traced.valueTables {ts : Tables} (h : Traced m p ts)
    (hp : p.Signatures) (hsound : p.Sound) :
    p.ValueTables ∧ ∀ {id c}, p.getConstant? id = some c → c.value.All Expr.HoldsValues := by
  have hcalls : ∀ k ∈ ts.constants, k.value.All fun e => ¬e.IsVoidCall := by
    intro k hk
    obtain ⟨i, hi⟩ := List.getElem?_of_mem hk
    have hget : p.getConstant? ⟨i⟩ = some k := by
      rw [Program.getConstant?, h.constants_eq, List.getElem?_toArray]
      exact hi
    refine (hsound.constants ⟨i⟩ k hget).1.imp fun e he => ?_
    rintro ⟨receiver, arguments, function, rfl⟩
    -- calls stand in bodies only
    cases he.inScope.1
  have hbare : (bareProgram m.name m.models).ValueTables := by
    refine ⟨fun {id c} hc => ?_, fun {id f} hf => ?_, fun {id f} hf => ?_, fun {id md} hm => ?_⟩
    · cases hc
    · cases hf
    · cases hf
    · intro f hf
      obtain ⟨x, _, rfl⟩ := List.mem_map.mp (List.mem_toArray.mp (Array.mem_of_getElem? hm))
      cases hf
  have hvalued := h.declares.constants.valued hbare hcalls
  have hmem {id : ConstantId} {c : Constant} (hc : p.getConstant? id = some c) :
      c ∈ ts.constants := by
    rw [Program.getConstant?, h.constants_eq, List.getElem?_toArray] at hc
    exact List.mem_of_getElem? hc
  refine ⟨⟨fun hc => (hvalued _ (hmem hc)).1, fun hf q hq => (hp.parameters hf q hq).2, ?_,
    fun hm f hf => (hp.fields hm f hf).2⟩, fun hc => (hvalued _ (hmem hc)).2⟩
  intro id f hf
  obtain ⟨⟨owner, g⟩, hid⟩ := (h.exists_function id).mp ⟨f, hf⟩
  obtain ⟨f', hf', hsignature⟩ := (h.functionMade hid).signature
  cases hf.symm.trans hf'
  by_cases hvoid : f.returnType = .void
  · exact .inl hvoid
  · exact .inr (lowerType_valued hsignature.returnType hvoid)

/-- A body whose literals have no element that returns nothing. -/
theorem MadeFrom.valued {callable : Callable} {scope : Scope} {block : Syntax.Block}
    (h : MadeFrom p callable scope block) {body : Block} (hbody : p.body? callable = some body)
    (hp : p.ValueTables) (hscope : ∀ b ∈ scope.bindings, p.ValueLocal b.id)
    (hfilled : ∀ s ∈ body, s.Throughout Expr.Filled) :
    (∀ s ∈ body, s.Throughout Expr.HoldsValues) ∧ ∀ id ∈ blockBinders body, p.ValueLocal id := by
  obtain ⟨q, q', body', hlowers, hbody', hgrows, _, hfits⟩ := h.made
  cases hbody.symm.trans hbody'
  obtain ⟨c1, hblock, rfl⟩ := hlowers.block
  have hq : q.Grows p := hblock.adds.1.grows.trans hgrows
  have hc : Context.Valued ⟨q, scope⟩ := by
    refine ⟨hp.of_grows hq, fun b hb => ?_⟩
    obtain ⟨frame, hframe, hb'⟩ := List.mem_flatMap.mp hb
    obtain ⟨_, l, hl⟩ := (hfits frame hframe).bindings b hb'
    obtain ⟨l', hl', hvalued⟩ := hscope b hb
    cases hl'.symm.trans (hq.locals hl)
    exact ⟨l, hl, hvalued⟩
  obtain ⟨hholds, hids⟩ := hblock.valued (hc.push rfl) hfilled
  exact ⟨hholds, fun id hid => (hids id hid).grows hgrows⟩

/-- Where `void` stands in a program, and where not. -/
structure ValueTyped (p : Program) : Prop where
  tables : p.ValueTables
  others : ∀ {id l}, p.getLocal? id = some l → l.origin = .overrideOther → l.type.Valued
  declared : ∀ {id l}, p.getLocal? id = some l → l.origin = .declared → l.type ≠ .void
  locals : (p.Throughout Expr.HoldsValues ∧
      ∀ {id l}, p.getLocal? id = some l → l.type.Valued) ↔
    p.Throughout Expr.Filled

/-- The locals of a finished program: what an equality compares with, or what a statement binds. -/
theorem local_cases (h : lower m limit = .ok p) {id : LocalId} {l : Local}
    (hl : p.getLocal? id = some l) :
    (∃ model, l.type = .model model) ∨ (l.origin = .declared ∧ l.type ≠ .void) ∨
      l.origin = .forEachItem := by
  have hsound := lower_sound h
  obtain ⟨model, hother⟩ | ⟨callable, body, hbody, hid⟩ :=
    Program.mem_binders ((lower_pending h).bound.mem_binders.mpr ⟨l, hl⟩)
  · obtain ⟨l', hl', _, ht⟩ := hsound.others model id hother
    cases hl.symm.trans hl'
    exact .inl ⟨model, ht⟩
  · obtain ⟨s, hs, hid⟩ := mem_blockBinders.mp hid
    obtain ⟨t, ht, hbinds⟩ := ((hsound.bodies hbody).sound s hs).exists_binder hid
    cases t with
    | declare id' value =>
      obtain rfl : id' = id := hbinds
      obtain ⟨l', hl', horigin, htype⟩ := ht.inScope
      cases hl.symm.trans hl'
      obtain ⟨t, ht, hvoid⟩ := ht.agrees
      cases htype.symm.trans ht
      exact .inr (.inl ⟨horigin, hvoid⟩)
    | forEach id' iterable kind itemType block =>
      obtain rfl : id' = id := hbinds
      obtain ⟨_, l', hl', horigin, _⟩ := ht.inScope
      cases hl.symm.trans hl'
      exact .inr (.inr horigin)
    | _ => cases hbinds

/-- Where `void` may stand in a lowered program.

Constants, parameters, fields and what equalities compare with have types of values, and no declared
local is `void` itself. All locals have types of values and all literals are containers of values
exactly if no call that returns nothing stands as an element, a key or a value of a literal. -/
theorem lower_valued (h : lower m limit = .ok p) : ValueTyped p := by
  have hsound := lower_sound h
  have hpending := lower_pending h
  obtain ⟨_, ts, htraced⟩ := lower_traced h
  obtain ⟨htables, hconstants⟩ := htraced.valueTables hpending.signatures hsound
  refine ⟨htables, fun {id l} hl horigin => ?_, fun {id l} hl horigin => ?_, ?_, ?_⟩
  · obtain ⟨model, ht⟩ | ⟨hdeclared, _⟩ | hitem := local_cases h hl
    · rw [ht]
      trivial
    · cases horigin.symm.trans hdeclared
    · cases horigin.symm.trans hitem
  · obtain ⟨model, ht⟩ | ⟨_, hvoid⟩ | hitem := local_cases h hl
    · rw [ht]
      rintro ⟨⟩
    · exact hvoid
    · cases horigin.symm.trans hitem
  -- literals state the types of their elements, so a call of a void function would show
  · rintro ⟨hholds, _⟩
    refine ⟨fun {id c} hc => ?_, fun {callable body} hbody s hs => ?_⟩
    · exact Expr.filled_of_holdsValues
        ((hsound.constants id c hc).1.imp fun _ he => he.truthful) (hholds.constants hc)
    · exact Stmt.filled_of_holdsValues ((hsound.bodies hbody).sound s hs)
        (hholds.bodies hbody s hs)
  -- a local gets its type from an expression of the body that binds it
  · intro hfilled
    have hbodies {callable : Callable} {body : Block} (hbody : p.body? callable = some body) :
        (∀ s ∈ body, s.Throughout Expr.HoldsValues) ∧
          ∀ id ∈ blockBinders body, p.ValueLocal id := by
      obtain ⟨scope, block, hmade, hbindings⟩ := htraced.exists_made hbody
      refine hmade.valued hbody htables (fun b hb => ?_) (hfilled.bodies hbody)
      have hother : b.id ∈ (p.other? callable).toList := by
        rw [← hbindings]
        exact List.mem_map_of_mem hb
      cases callable with
      | equality model =>
        obtain ⟨l, hl, _, ht⟩ := hsound.others model b.id (Option.mem_toList.mp hother)
        refine ⟨l, hl, ?_⟩
        rw [ht]
        trivial
      | function _ => cases hother
      | hashing _ => cases hother
    refine ⟨⟨hconstants, fun hbody => (hbodies hbody).1⟩, fun {id l} hl => ?_⟩
    obtain ⟨model, hother⟩ | ⟨callable, body, hbody, hid⟩ :=
      Program.mem_binders (hpending.bound.mem_binders.mpr ⟨l, hl⟩)
    · obtain ⟨l', hl', _, ht⟩ := hsound.others model id hother
      cases hl.symm.trans hl'
      rw [ht]
      trivial
    · obtain ⟨l', hl', hvalued⟩ := (hbodies hbody).2 id hid
      cases hl.symm.trans hl'
      exact hvalued

theorem sampleProgram_valued :
    lower sampleModule none = .ok sampleProgram ∧ ValueTyped sampleProgram :=
  ⟨lower_sampleModule, lower_valued lower_sampleModule⟩

/-- A function that returns nothing, and a list of its result. -/
def unitListModule : Syntax.Module where
  name := "Units"
  constants := []
  functions := [
    { name := "skip", parameters := [], returnType := .void, body := [] },
    { name := "main"
      parameters := []
      returnType := .void
      body := [
        .declare "units" (.list [.call (.function "skip") []]),
        .forEach "unit" (.var "units") []] }]
  models := []

/-- The locals of `unitListModule` are a list of `void` and an item that is `void` itself. -/
theorem unitList_void : ∃ p, lower unitListModule none = .ok p ∧
    p.locals = #[⟨"units", .list .void, .declared⟩, ⟨"unit", .void, .forEachItem⟩] :=
  ⟨_, by cbv, rfl⟩

end Lowered

end Scribe.Lowering
