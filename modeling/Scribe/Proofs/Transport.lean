import Scribe.Proofs.Renaming

/-!
# Lowering under new ids

Where two programs have the same definitions under new ids (`Similar`), lowering does the same in
both: what an expression or a statement becomes in the one, it becomes in the other with new ids
(`Elab.rename`, `ElabStmts.rename`). The ids of locals that are taken on the way are new in both
programs; they correspond if they do so from the start (`Tracks`).
-/

namespace Scribe.Lowering

open Scribe.Core

/-! ## Types -/

/-- An expression has a type, and its type under new ids is that type under new ids. -/
def TypeKept (ρ : Renaming) (p q : Program) (e : Expr) : Prop :=
  ∃ t, typeOf p e = .ok t ∧ typeOf q (e.rename ρ) = .ok (t.rename ρ.models)

section Types

variable {ρ : Renaming} {p q : Program} {t : Ty} {es : List Expr} {part : LiteralPart}

theorem TypeKept.typeOf {e : Expr} (h : TypeKept ρ p q e) (ht : typeOf p e = .ok t) :
    Lowering.typeOf q (e.rename ρ) = .ok (t.rename ρ.models) := by
  obtain ⟨t', ht', hrenamed⟩ := h
  cases ht.symm.trans ht'
  exact hrenamed

theorem stated_rename (ρ : Renaming) (e : Expr) :
    (e.rename ρ).stated = e.stated.rename ρ.models := by
  cases e <;> rfl

/-- Lowered expressions have the type that they state. -/
theorem TypeKept.of_rules {scope scope' : Scope} {e e1 : Syntax.Expr} {e' : Expr}
    (h : Elab p scope e e') (h' : Elab q scope' e1 (e'.rename ρ)) : TypeKept ρ p q e' :=
  ⟨e'.stated, h.typed, by rw [h'.typed, stated_rename]⟩

theorem sharedType_items_rename (h : ∀ e ∈ es, TypeKept ρ p q e)
    (ht : sharedType p part (typesOf p es) = .ok t) :
    sharedType q part (typesOf q (renameExprs ρ es)) = .ok (t.rename ρ.models) := by
  obtain ⟨hne, hall⟩ := sharedType_items.mp ht
  rw [renameExprs_eq_map]
  refine sharedType_items.mpr ⟨mt List.map_eq_nil_iff.mp hne, ?_⟩
  intro e' he'
  obtain ⟨e, he, rfl⟩ := List.mem_map.mp he'
  exact (h e he).typeOf (hall e he)

variable {entries : List (Expr × Expr)} {output : Primitive}

theorem sharedType_keys_rename (h : ∀ x ∈ entries, TypeKept ρ p q x.1)
    (ht : sharedType p part (keyTypes p entries) = .ok t) :
    sharedType q part (keyTypes q (renameEntries ρ entries)) = .ok (t.rename ρ.models) := by
  obtain ⟨hne, hall⟩ := sharedType_keys.mp ht
  rw [renameEntries_eq_map]
  refine sharedType_keys.mpr ⟨mt List.map_eq_nil_iff.mp hne, ?_⟩
  intro x' hx'
  obtain ⟨x, hx, rfl⟩ := List.mem_map.mp hx'
  exact (h x hx).typeOf (hall x hx)

theorem sharedType_values_rename (h : ∀ x ∈ entries, TypeKept ρ p q x.2)
    (ht : sharedType p part (valueTypes p entries) = .ok t) :
    sharedType q part (valueTypes q (renameEntries ρ entries)) = .ok (t.rename ρ.models) := by
  obtain ⟨hne, hall⟩ := sharedType_values.mp ht
  rw [renameEntries_eq_map]
  refine sharedType_values.mpr ⟨mt List.map_eq_nil_iff.mp hne, ?_⟩
  intro x' hx'
  obtain ⟨x, hx, rfl⟩ := List.mem_map.mp hx'
  exact (h x hx).typeOf (hall x hx)

/-- Arguments that fit the parameters of a function fit them under new ids. -/
theorem map_typeOf_rename {qs : List Parameter} (h : ∀ e ∈ es, TypeKept ρ p q e)
    (htypes : es.map (typeOf p) = qs.map fun x => .ok x.type) :
    (renameExprs ρ es).map (typeOf q) =
      (qs.map (·.rename ρ.models)).map fun x => .ok x.type := by
  induction es generalizing qs with
  | nil =>
    cases qs with
    | nil => rfl
    | cons x qs => cases htypes
  | cons e es ih =>
    cases qs with
    | nil => cases htypes
    | cons x qs =>
      rw [List.map_cons, List.map_cons, List.cons.injEq] at htypes
      obtain ⟨he, hes⟩ := List.forall_mem_cons.mp h
      rw [renameExprs, List.map_cons, he.typeOf htypes.1, ih hes htypes.2]
      rfl

/-- A function that is called, under new ids. -/
theorem Similar.callee (hs : Similar ρ p q) {function : FunctionId} {f : Function}
    (hf : p.getFunction? function = some f) (h : ∀ e ∈ es, TypeKept ρ p q e)
    (htypes : es.map (typeOf p) = f.parameters.map fun x => .ok x.type) :
    ∃ g, q.getFunction? (ρ.functions function) = some g ∧
      g.returnType = f.returnType.rename ρ.models ∧
      (renameExprs ρ es).map (typeOf q) = g.parameters.map fun x => .ok x.type := by
  obtain ⟨g, hg, hrenamed⟩ := hs.functions hf
  refine ⟨g, hg, hrenamed.returnType, ?_⟩
  rw [hrenamed.parameters]
  exact map_typeOf_rename h htypes

theorem unaryOutput_rename {op : UnaryOp} (h : unaryOutput p op t = .ok output) :
    unaryOutput q op (t.rename ρ.models) = .ok output := by
  rw [unaryOutput_eq_ok] at h ⊢
  rw [← h]
  cases t <;> cases op <;> rfl

theorem binaryOutput_rename {op : BinaryOp} {l r : Ty} (h : binaryOutput p op l r = .ok output) :
    binaryOutput q op (l.rename ρ.models) (r.rename ρ.models) = .ok output := by
  obtain ⟨l, r, table, rfl, rfl, htable, houtput⟩ := binaryOutput_eq_ok.mp h
  exact binaryOutput_eq_ok.mpr ⟨l, r, table, rfl, rfl, htable, houtput⟩

theorem lookupType_rename {container key output : Ty} {kind : LookupKind}
    (h : lookupType p container key = .ok (kind, output)) :
    lookupType q (container.rename ρ.models) (key.rename ρ.models) =
      .ok (kind, output.rename ρ.models) := by
  refine lookupType_eq_ok.mpr ?_
  obtain ⟨rfl, rfl, rfl⟩ | ⟨rfl, rfl⟩ | ⟨rfl, rfl, rfl, rfl⟩ := lookupType_eq_ok.mp h
  · exact .inl ⟨rfl, rfl, rfl⟩
  · exact .inr (.inl ⟨rfl, rfl⟩)
  · exact .inr (.inr ⟨rfl, rfl, rfl, rfl⟩)

theorem lengthKind_rename {kind : LengthKind} (h : lengthKind p t = .ok kind) :
    lengthKind q (t.rename ρ.models) = .ok kind := by
  refine lengthKind_eq_ok.mpr ?_
  cases lengthKind_eq_ok.mp h with
  | string => exact .string
  | list item => exact .list _
  | map key value => exact .map _ _
  | set item => exact .set _

theorem iterableKind_rename {t item : Ty} {kind : IterableKind}
    (h : iterableKind p t = .ok (kind, item)) :
    iterableKind q (t.rename ρ.models) = .ok (kind, item.rename ρ.models) := by
  refine iterableKind_eq_ok.mpr ?_
  obtain ⟨rfl, rfl⟩ | ⟨rfl, rfl⟩ := iterableKind_eq_ok.mp h
  · exact .inl ⟨rfl, rfl⟩
  · exact .inr ⟨rfl, rfl⟩

end Types

/-! ## Expressions -/

section Expr

variable {ρ : Renaming} {p q : Program} {scope : Scope}

mutual

/-- What an expression becomes, it becomes under new ids. -/
theorem Elab.rename {e e'} (h : Elab p scope e e') (hs : Similar ρ p q)
    (hl : Carries ρ p q (scope.bindings.map (·.id))) :
    Elab q (scope.rename ρ) e (e'.rename ρ) ∧ TypeKept ρ p q e' := by
  suffices hrename : Elab q (scope.rename ρ) e (e'.rename ρ) from ⟨hrename, .of_rules h hrename⟩
  cases h with
  | bool value => exact .bool value
  | int value => exact .int value
  | rune value => exact .rune value
  | string value => exact .string value
  | list hes hitem =>
    obtain ⟨hes', hkept⟩ := hes.rename hs hl
    exact .list hes' (sharedType_items_rename hkept hitem)
  | set hes hitem =>
    obtain ⟨hes', hkept⟩ := hes.rename hs hl
    exact .set hes' (sharedType_items_rename hkept hitem)
  | map hentries hkey hvalue =>
    obtain ⟨hentries', hkept⟩ := hentries.rename hs hl
    exact .map hentries' (sharedType_keys_rename (fun x hx => (hkept x hx).1) hkey)
      (sharedType_values_rename (fun x hx => (hkept x hx).2) hvalue)
  | emptyList hitem => exact .emptyList (hs.lowerValueType hitem)
  | emptySet hitem => exact .emptySet (hs.lowerValueType hitem)
  | emptyMap hkey hvalue => exact .emptyMap (hs.lowerValueType hkey) (hs.lowerValueType hvalue)
  | callFunction hresolve hf hes htypes =>
    obtain ⟨hes', hkept⟩ := hes.rename hs hl
    obtain ⟨g, hg, hreturn, htypes'⟩ := hs.callee hf hkept htypes
    rw [Expr.rename, ← hreturn]
    exact .callFunction (hs.resolveFunction hresolve) hg hes' htypes'
  | callMethod hr ht hresolve hf hes htypes =>
    obtain ⟨hr', hkeptr⟩ := hr.rename hs hl
    obtain ⟨hes', hkept⟩ := hes.rename hs hl
    obtain ⟨g, hg, hreturn, htypes'⟩ := hs.callee hf hkept htypes
    rw [Expr.rename, ← hreturn]
    exact .callMethod hr' (hkeptr.typeOf ht) (hs.resolveMethod hresolve) hg hes' htypes'
  | callContains hr ht he hte =>
    obtain ⟨hr', hkeptr⟩ := hr.rename hs hl
    obtain ⟨he', hkept⟩ := he.rename hs hl
    exact .callContains hr' (hkeptr.typeOf ht) he' (hkept.typeOf hte)
  | callPop hr ht =>
    obtain ⟨hr', hkeptr⟩ := hr.rename hs hl
    exact .callPop hr' (hkeptr.typeOf ht)
  | lookup ha hk hta htk hlookup =>
    obtain ⟨ha', hkepta⟩ := ha.rename hs hl
    obtain ⟨hk', hkeptk⟩ := hk.rename hs hl
    exact .lookup ha' hk' (hkepta.typeOf hta) (hkeptk.typeOf htk) (lookupType_rename hlookup)
  | property hr ht hfield =>
    obtain ⟨hr', hkeptr⟩ := hr.rename hs hl
    exact .property hr' (hkeptr.typeOf ht) (hs.resolveField hfield)
  | contains ha hta he hte =>
    obtain ⟨ha', hkepta⟩ := ha.rename hs hl
    obtain ⟨he', hkept⟩ := he.rename hs hl
    exact .contains ha' (hkepta.typeOf hta) he' (hkept.typeOf hte)
  | new hid => exact .new (by rw [hs.model?, hid]; rfl)
  | length he ht hkind =>
    obtain ⟨he', hkept⟩ := he.rename hs hl
    exact .length he' (hkept.typeOf ht) (lengthKind_rename hkind)
  | unary he ht houtput =>
    obtain ⟨he', hkept⟩ := he.rename hs hl
    exact .unary he' (hkept.typeOf ht) (unaryOutput_rename houtput)
  | binary hleft hright htl htr houtput =>
    obtain ⟨hleft', hkeptl⟩ := hleft.rename hs hl
    obtain ⟨hright', hkeptr⟩ := hright.rename hs hl
    exact .binary hleft' hright' (hkeptl.typeOf htl) (hkeptr.typeOf htr)
      (binaryOutput_rename houtput)
  | nullLeft hop he ht hvoid =>
    obtain ⟨he', hkept⟩ := he.rename hs hl
    exact .nullLeft hop he' (hkept.typeOf ht) (Ty.rename_ne_void hvoid)
  | nullRight hop he ht hvoid =>
    obtain ⟨he', hkept⟩ := he.rename hs hl
    exact .nullRight hop he' (hkept.typeOf ht) (Ty.rename_ne_void hvoid)
  | @var name d t hd ht =>
    refine .var (hs.resolve hd) (hs.definitionType? ?_ ht)
    rintro id rfl
    refine List.forall_mem_singleton.mpr (hl id ?_)
    exact List.mem_map.mpr ⟨_, Scope.mem_bindings_of_resolve hd, rfl⟩
  | self hid =>
    refine .self ?_
    rw [Scope.enclosingModel?_rename, hid]
    rfl
  | pop ha hta =>
    obtain ⟨ha', hkepta⟩ := ha.rename hs hl
    exact .pop ha' (hkepta.typeOf hta)

theorem Elabs.rename {es es'} (h : Elabs p scope es es') (hs : Similar ρ p q)
    (hl : Carries ρ p q (scope.bindings.map (·.id))) :
    Elabs q (scope.rename ρ) es (renameExprs ρ es') ∧ ∀ e ∈ es', TypeKept ρ p q e := by
  cases h with
  | nil => exact ⟨.nil, List.forall_mem_nil _⟩
  | cons he hes =>
    obtain ⟨he', hkept⟩ := he.rename hs hl
    obtain ⟨hes', hkepts⟩ := hes.rename hs hl
    exact ⟨.cons he' hes', List.forall_mem_cons.mpr ⟨hkept, hkepts⟩⟩

theorem ElabEntries.rename {entries entries'} (h : ElabEntries p scope entries entries')
    (hs : Similar ρ p q) (hl : Carries ρ p q (scope.bindings.map (·.id))) :
    ElabEntries q (scope.rename ρ) entries (renameEntries ρ entries') ∧
      ∀ x ∈ entries', TypeKept ρ p q x.1 ∧ TypeKept ρ p q x.2 := by
  cases h with
  | nil => exact ⟨.nil, List.forall_mem_nil _⟩
  | cons hk hv hentries =>
    obtain ⟨hk', hkeptk⟩ := hk.rename hs hl
    obtain ⟨hv', hkeptv⟩ := hv.rename hs hl
    obtain ⟨hentries', hkepts⟩ := hentries.rename hs hl
    exact ⟨.cons hk' hv' hentries', List.forall_mem_cons.mpr ⟨⟨hkeptk, hkeptv⟩, hkepts⟩⟩

end

theorem ElabAt.rename {t : Ty} {e : Syntax.Expr} {e' : Expr} (h : ElabAt p scope t e e')
    (hs : Similar ρ p q) (hl : Carries ρ p q (scope.bindings.map (·.id))) :
    ElabAt q (scope.rename ρ) (t.rename ρ.models) e (e'.rename ρ) ∧ TypeKept ρ p q e' := by
  cases h with
  | null hvoid => exact ⟨.null (Ty.rename_ne_void hvoid), _, rfl, rfl⟩
  | expr he =>
    obtain ⟨he', hkept⟩ := he.rename hs hl
    exact ⟨.expr he', hkept⟩

end Expr

/-! ## Statements -/

variable {scope : Scope}

theorem ElabSimple.rename {ρ : Renaming} {p q : Program} {s : Syntax.Stmt} {s' : Stmt}
    (h : ElabSimple p scope s s') (hs : Similar ρ p q)
    (hl : Carries ρ p q (scope.bindings.map (·.id))) :
    ElabSimple q (scope.rename ρ) s (s'.rename ρ) := by
  have hcallable {callable : Callable} (h : scope.enclosingCallable? = some callable) :
      (scope.rename ρ).enclosingCallable? = some (callable.rename ρ) := by
    rw [Scope.enclosingCallable?_rename, h]
    rfl
  cases h with
  | assign hplace hisPlace ht he hte =>
    obtain ⟨hplace', hkept⟩ := hplace.rename hs hl
    obtain ⟨he', hkept'⟩ := he.rename hs hl
    exact .assign hplace' (hisPlace.rename ρ) (hkept.typeOf ht) he' (hkept'.typeOf hte)
  | retNone hc hvoid => exact .retNone (hcallable hc) (hs.callableReturnType? hvoid)
  | retSome hc ht he hte =>
    obtain ⟨he', hkept⟩ := he.rename hs hl
    exact .retSome (hcallable hc) (hs.callableReturnType? ht) he' (hkept.typeOf hte)
  | brk hloop => exact .brk (scope.inLoop_rename.trans hloop)
  | cont hloop => exact .cont (scope.inLoop_rename.trans hloop)
  | add ha hta he hte =>
    obtain ⟨ha', hkept⟩ := ha.rename hs hl
    obtain ⟨he', hkept'⟩ := he.rename hs hl
    exact .add ha' (hkept.typeOf hta) he' (hkept'.typeOf hte)
  | push ha hta he hte =>
    obtain ⟨ha', hkept⟩ := ha.rename hs hl
    obtain ⟨he', hkept'⟩ := he.rename hs hl
    exact .push ha' (hkept.typeOf hta) he' (hkept'.typeOf hte)
  | pop ha hta =>
    obtain ⟨ha', hkept⟩ := ha.rename hs hl
    exact .pop ha' (hkept.typeOf hta)
  | callFunction hresolve hf hes htypes =>
    obtain ⟨hes', hkept⟩ := hes.rename hs hl
    obtain ⟨g, hg, hreturn, htypes'⟩ := hs.callee hf hkept htypes
    rw [Stmt.rename, ← hreturn]
    exact .callFunction (hs.resolveFunction hresolve) hg hes' htypes'
  | callMethod hr ht hresolve hf hes htypes =>
    obtain ⟨hr', hkeptr⟩ := hr.rename hs hl
    obtain ⟨hes', hkept⟩ := hes.rename hs hl
    obtain ⟨g, hg, hreturn, htypes'⟩ := hs.callee hf hkept htypes
    rw [Stmt.rename, ← hreturn]
    exact .callMethod hr' (hkeptr.typeOf ht) (hs.resolveMethod hresolve) hg hes' htypes'
  | callAdd hr ht he hte =>
    obtain ⟨hr', hkeptr⟩ := hr.rename hs hl
    obtain ⟨he', hkept⟩ := he.rename hs hl
    exact .callAdd hr' (hkeptr.typeOf ht) he' (hkept.typeOf hte)
  | callPush hr ht he hte =>
    obtain ⟨hr', hkeptr⟩ := hr.rename hs hl
    obtain ⟨he', hkept⟩ := he.rename hs hl
    exact .callPush hr' (hkeptr.typeOf ht) he' (hkept.typeOf hte)
  | callPop hr ht =>
    obtain ⟨hr', hkeptr⟩ := hr.rename hs hl
    exact .callPop hr' (hkeptr.typeOf ht)

/-- `q` stands to a context as the same program under new ids, and the next `n` locals that are
taken in both correspond. -/
structure Tracks (ρ : Renaming) (c : Context) (q : Program) (n : Nat) : Prop where
  similar : Similar ρ c.program q
  carries : Carries ρ c.program q (c.scope.bindings.map (·.id))
  aligned : ∀ i < n, ρ.locals ⟨c.program.locals.size + i⟩ = ⟨q.locals.size + i⟩

section Tracks

variable {ρ : Renaming} {c c' : Context} {q q' : Program} {n k : Nat}

/-- Both programs have taken the locals `ids`, and the scope knows no others that are new. -/
theorem Tracks.advance (h : Tracks ρ c q (n + k)) {ids : List LocalId} (hn : ids.length = n)
    (hadds : AddsLocals c.program c'.program ids)
    (hadds' : AddsLocals q q' (ids.map ρ.locals)) (hcarries : Carries ρ c'.program q' ids)
    (hscope : ∀ b ∈ c'.scope.bindings, b ∈ c.scope.bindings ∨ b.id ∈ ids) :
    Tracks ρ c' q' k := by
  refine ⟨?_, ?_, ?_⟩
  · exact h.similar.of_stripped (AddsLocals.stripped hadds) (AddsLocals.stripped hadds') ρ.locals
  · intro id hid
    obtain ⟨b, hb, rfl⟩ := List.mem_map.mp hid
    obtain hold | hnew := hscope b hb
    · exact h.carries.grows hadds.grows hadds'.grows _ (List.mem_map.mpr ⟨b, hold, rfl⟩)
    · exact hcarries _ hnew
  · intro i hi
    rw [hadds.size, hadds'.size, List.length_map, hn, Nat.add_assoc, Nat.add_assoc]
    exact h.aligned (n + i) (by omega)

theorem Tracks.mono (h : Tracks ρ c q (n + k)) : Tracks ρ c q n :=
  ⟨h.similar, h.carries, fun i hi => h.aligned i (by omega)⟩

/-- A frame without bindings. -/
theorem Tracks.enter (h : Tracks ρ c q n) {frame : Frame} (hframe : frame.bindings = []) :
    Tracks ρ { c with scope := frame :: c.scope } q n := by
  refine ⟨h.similar, ?_, h.aligned⟩
  rw [Scope.bindings_cons, hframe]
  exact h.carries

theorem Tracks.block (h : Tracks ρ c q n) :
    Tracks ρ { c with scope := .block [] :: c.scope } q n :=
  h.enter rfl

theorem Tracks.loop (h : Tracks ρ c q n) :
    Tracks ρ { c with scope := .forLoop none :: c.scope } q n :=
  h.enter rfl

theorem Tracks.single (h : Tracks ρ c q (1 + k)) (l : Local) :
    ρ.locals ⟨c.program.locals.size⟩ = ⟨q.locals.size⟩ ∧
      Carries ρ (c.program.withLocal l) (q.withLocal (l.rename ρ.models))
        [⟨c.program.locals.size⟩] := by
  have hid := h.aligned 0 (by omega)
  rw [Nat.add_zero, Nat.add_zero] at hid
  refine ⟨hid, List.forall_mem_singleton.mpr ⟨l, getLocal?_withLocal_self _ _, ?_⟩⟩
  rw [hid]
  exact getLocal?_withLocal_self _ _

end Tracks

mutual

/-- What a statement becomes, it becomes under new ids, and the locals that it binds correspond. -/
theorem ElabStmt.rename {ρ : Renaming} {q : Program} {c c' s s'} (h : ElabStmt c s s' c')
    (ht : Tracks ρ c q s'.binders.length) :
    ∃ q', ElabStmt ⟨q, c.scope.rename ρ⟩ s (s'.rename ρ) ⟨q', c'.scope.rename ρ⟩ ∧
      Carries ρ c'.program q' s'.binders := by
  cases h with
  | simple hs =>
    refine ⟨q, .simple (hs.rename ht.similar ht.carries), ?_⟩
    rw [hs.binders]
    exact List.forall_mem_nil _
  | @declare _ name e e' t scope hname he hte hvoid hbind =>
    obtain ⟨he', hkept⟩ := he.rename ht.similar ht.carries
    obtain ⟨hid, hcarries⟩ := Tracks.single (k := 0) ht ⟨name, t, .declared⟩
    have hbind' := Scope.bind_rename (ρ := ρ) hbind
    rw [Binding.rename, hid] at hbind'
    refine ⟨_, ?_, hcarries⟩
    rw [Stmt.rename, hid]
    exact .declare hname he' (hkept.typeOf hte) (Ty.rename_ne_void hvoid) hbind'
  | @conditional _ c1 _ arms arms' otherwise otherwise' hne harms hotherwise =>
    rw [Stmt.binders, List.length_append] at ht
    obtain ⟨q1, harms', hcarries1⟩ := harms.rename ht.mono
    have hadds' := harms'.adds.1
    rw [armBinders_rename] at hadds'
    have ht1 := ht.advance rfl harms.adds.1 hadds' hcarries1
      (by rw [harms.adds.2]; exact fun b hb => .inl hb)
    obtain ⟨q2, hotherwise', hcarries2⟩ := hotherwise.rename ht1
    refine ⟨q2, .conditional hne harms' hotherwise', ?_⟩
    exact (hcarries1.grows hotherwise.adds.1.grows hotherwise'.adds.1.grows).append hcarries2
  | @forLoop _ c1 c2 c3 start after start' after' e e' body body' hstart he hte hafter hbody =>
    rw [Stmt.binders, List.length_append, List.length_append] at ht
    have ht0 := ht.loop
    obtain ⟨q1, hstart', hcarries1⟩ := hstart.rename ht0.mono
    have hadds1 := hstart'.adds.1
    rw [partBinders_rename] at hadds1
    have ht1 := ht0.advance rfl hstart.adds.1 hadds1 hcarries1 hstart.mem_bindings
    obtain ⟨he', hkept⟩ := he.rename ht1.similar ht1.carries
    obtain ⟨q2, hafter', hcarries2⟩ := hafter.rename ht1.mono
    have hadds2 := hafter'.adds.1
    rw [partBinders_rename] at hadds2
    have ht2 := ht1.advance rfl hafter.adds.1 hadds2 hcarries2 hafter.mem_bindings
    obtain ⟨q3, hbody', hcarries3⟩ := hbody.rename ht2.block
    have hg := hbody.adds.1.grows
    have hg' := hbody'.adds.1.grows
    refine ⟨q3, .forLoop hstart' he' (hkept.typeOf hte) hafter' hbody', ?_⟩
    exact (hcarries1.grows (hafter.adds.1.grows.trans hg) (hafter'.adds.1.grows.trans hg')).append
      ((hcarries2.grows hg hg').append hcarries3)
  | @forEach _ c1 item e e' t itemType kind body body' hname he hte hkind hbody =>
    rw [Stmt.binders, List.length_cons, Nat.add_comm] at ht
    obtain ⟨he', hkept⟩ := he.rename ht.similar ht.carries
    obtain ⟨hid, hcarries⟩ := ht.single ⟨item, itemType, .forEachItem⟩
    have hadds := AddsLocals.single c.program ⟨item, itemType, .forEachItem⟩
    have hadds' := AddsLocals.single q (Local.rename ρ.models ⟨item, itemType, .forEachItem⟩)
    rw [← hid] at hadds'
    have ht1 : Tracks ρ ⟨c.program.withLocal ⟨item, itemType, .forEachItem⟩,
        .forEach ⟨item, ⟨c.program.locals.size⟩⟩ :: c.scope⟩
        (q.withLocal (Local.rename ρ.models ⟨item, itemType, .forEachItem⟩))
        (blockBinders body').length := by
      refine ht.advance rfl hadds hadds' hcarries ?_
      intro b hb
      obtain rfl | hb := List.mem_cons.mp hb
      · exact .inr List.mem_cons_self
      · exact .inl hb
    obtain ⟨q2, hbody', hcarries2⟩ := hbody.rename ht1.block
    refine ⟨q2, ?_, (hcarries.grows hbody.adds.1.grows hbody'.adds.1.grows).append hcarries2⟩
    have hinner : ElabStmts ⟨q.withLocal ⟨item, itemType.rename ρ.models, .forEachItem⟩,
        .block [] :: .forEach ⟨item, ρ.locals ⟨c.program.locals.size⟩⟩ :: c.scope.rename ρ⟩ body
        (renameBlock ρ body') ⟨q2, _⟩ := hbody'
    rw [hid] at hinner
    rw [Stmt.rename, hid]
    exact .forEach (c := ⟨q, c.scope.rename ρ⟩) hname he' (hkept.typeOf hte)
      (iterableKind_rename hkind) hinner

theorem ElabStmts.rename {ρ : Renaming} {q : Program} {c c' ss ss'} (h : ElabStmts c ss ss' c')
    (ht : Tracks ρ c q (blockBinders ss').length) :
    ∃ q', ElabStmts ⟨q, c.scope.rename ρ⟩ ss (renameBlock ρ ss') ⟨q', c'.scope.rename ρ⟩ ∧
      Carries ρ c'.program q' (blockBinders ss') := by
  cases h with
  | nil => exact ⟨q, .nil, List.forall_mem_nil _⟩
  | cons hs hss =>
    rw [blockBinders, List.length_append] at ht
    obtain ⟨q1, hs', hcarries1⟩ := hs.rename ht.mono
    have hadds' := hs'.adds.1
    rw [Stmt.binders_rename] at hadds'
    have ht1 := ht.advance rfl hs.adds.1 hadds' hcarries1 hs.mem_bindings
    obtain ⟨q2, hss', hcarries2⟩ := hss.rename ht1
    exact ⟨q2, .cons hs' hss',
      (hcarries1.grows hss.adds.1.grows hss'.adds.1.grows).append hcarries2⟩

theorem ElabPart.rename {ρ : Renaming} {q : Program} {c c' part part'}
    (h : ElabPart c part part' c') (ht : Tracks ρ c q (partBinders part').length) :
    ∃ q', ElabPart ⟨q, c.scope.rename ρ⟩ part (renamePart ρ part') ⟨q', c'.scope.rename ρ⟩ ∧
      Carries ρ c'.program q' (partBinders part') := by
  cases h with
  | none => exact ⟨q, .none, List.forall_mem_nil _⟩
  | some hs =>
    obtain ⟨q', hs', hcarries⟩ := hs.rename ht
    exact ⟨q', .some hs', hcarries⟩

theorem ElabArms.rename {ρ : Renaming} {q : Program} {c c' arms arms'}
    (h : ElabArms c arms arms' c') (ht : Tracks ρ c q (armBinders arms').length) :
    ∃ q', ElabArms ⟨q, c.scope.rename ρ⟩ arms (renameArms ρ arms') ⟨q', c'.scope.rename ρ⟩ ∧
      Carries ρ c'.program q' (armBinders arms') := by
  cases h with
  | nil => exact ⟨q, .nil, List.forall_mem_nil _⟩
  | @cons _ c1 _ e e' block block' arms arms' he hte hblock harms =>
    rw [armBinders, List.length_append] at ht
    obtain ⟨he', hkept⟩ := he.rename ht.similar ht.carries
    obtain ⟨q1, hblock', hcarries1⟩ := hblock.rename ht.mono.block
    have hadds' := hblock'.adds.1
    rw [blockBinders_rename] at hadds'
    have ht1 : Tracks ρ { c1 with scope := c.scope } q1 (armBinders arms').length :=
      ht.advance rfl hblock.adds.1 hadds' hcarries1 fun b hb => .inl hb
    obtain ⟨q2, harms', hcarries2⟩ := harms.rename ht1
    exact ⟨q2, .cons he' (hkept.typeOf hte) hblock' harms',
      (hcarries1.grows harms.adds.1.grows harms'.adds.1.grows).append hcarries2⟩

theorem ElabOtherwise.rename {ρ : Renaming} {q : Program} {c c' otherwise otherwise'}
    (h : ElabOtherwise c otherwise otherwise' c')
    (ht : Tracks ρ c q (otherwiseBinders otherwise').length) :
    ∃ q', ElabOtherwise ⟨q, c.scope.rename ρ⟩ otherwise (renameOtherwise ρ otherwise')
        ⟨q', c'.scope.rename ρ⟩ ∧ Carries ρ c'.program q' (otherwiseBinders otherwise') := by
  cases h with
  | none => exact ⟨q, .none, List.forall_mem_nil _⟩
  | some hblock =>
    obtain ⟨q', hblock', hcarries⟩ := hblock.rename ht.block
    have hsome := ElabOtherwise.some (c := ⟨q, c.scope.rename ρ⟩) hblock'
    exact ⟨q', hsome, hcarries⟩

end

/-! ## Bodies -/

theorem LowersBody.unique {callable : Callable} {block : Syntax.Block} {p p1 p2 : Program}
    {body1 body2 : Block} (h1 : LowersBody callable block p scope body1 p1)
    (h2 : LowersBody callable block p scope body2 p2) : body1 = body2 ∧ p1 = p2 := by
  have hrun1 : lowerBody callable block ⟨p, scope⟩ = .ok body1 ⟨p1, scope⟩ :=
    lowerBody_eq_ok.mpr ⟨h1, rfl⟩
  have hrun2 : lowerBody callable block ⟨p, scope⟩ = .ok body2 ⟨p2, scope⟩ :=
    lowerBody_eq_ok.mpr ⟨h2, rfl⟩
  cases hrun1.symm.trans hrun2
  exact ⟨rfl, rfl⟩

/-- What a block becomes as a body, it becomes under new ids. -/
theorem LowersBody.rename {ρ : Renaming} {callable : Callable} {block : Syntax.Block}
    {p p' q : Program} {body : Block} (h : LowersBody callable block p scope body p')
    (ht : Tracks ρ ⟨p, scope⟩ q (blockBinders body).length) :
    ∃ q', LowersBody (callable.rename ρ) block q (scope.rename ρ) (renameBlock ρ body) q' ∧
      Carries ρ p' q' (blockBinders body) := by
  obtain ⟨c1, hblock, rfl⟩ := h.block
  obtain ⟨q', hblock', hcarries⟩ := hblock.rename ht.block
  have hs : Similar ρ c1.program q' := ht.similar.of_stripped (AddsLocals.stripped hblock.adds.1)
    (AddsLocals.stripped hblock'.adds.1) ρ.locals
  refine ⟨q', ⟨⟨_, hblock', rfl⟩, ?_, ?_⟩, hcarries⟩
  · obtain ⟨name, hname⟩ := h.named
    exact ⟨name, hs.callableName? hname⟩
  · obtain ⟨t, ht', hend⟩ := h.returns
    refine ⟨t.rename ρ.models, hs.callableReturnType? ht', ?_⟩
    rw [endsInReturn_rename]
    obtain rfl | hend := hend
    · exact .inl rfl
    · exact .inr hend

end Scribe.Lowering
