import Scribe.Proofs.ElabStmt

/-!
# What names stand for

A name is looked up in a scope, in a model or in the tables of a program, and what is found has that
name (`Scope.resolve_name`). For locals this needs that the frames of the scope tell the truth about
the names of the locals that they bind (`Scope.Named`), which lowering a statement keeps
(`ElabStmt.named`).
-/

namespace Scribe.Core

variable {p p' : Program} {name : String}

theorem Program.Indexed.isSome_method? (hp : p.Indexed) {id : ModelId} {m : Model}
    (hm : p.getModel? id = some m) :
    (m.method? name).isSome = true ↔ name ∈ m.methods.map (·.name) := by
  rw [Option.isSome_iff_exists, List.mem_map]
  constructor
  · rintro ⟨function, h⟩
    exact ⟨_, (hp.method?_eq_some hm).mp h, rfl⟩
  · rintro ⟨x, hx, rfl⟩
    exact ⟨x.function, (hp.method?_eq_some hm).mpr hx⟩

theorem Program.Grows.definitionName? (h : p.Grows p') {d : Definition}
    (hd : p.definitionName? d = some name) : p'.definitionName? d = some name := by
  cases d with
  | constant id => exact map_eq_some_of_imp h.constants hd
  | argument function i => exact map_eq_some_of_imp h.getParameter? hd
  | field model i => exact map_eq_some_of_imp h.getField? hd
  | binding id => exact map_eq_some_of_imp h.locals hd

end Scribe.Core

namespace Scribe.Lowering

open Scribe.Core

/-! ## Frames and their bindings -/

/-- The names that a scope gives to locals, the innermost first. -/
def Scope.bindings (scope : Scope) : List Binding :=
  scope.flatMap Frame.bindings

/-- The local of a binding has its name. -/
def Binding.Named (p : Program) (b : Binding) : Prop :=
  ∃ l, p.getLocal? b.id = some l ∧ l.name = b.name

/-- The frames of a scope tell the truth about names. -/
def Scope.Named (p : Program) (scope : Scope) : Prop :=
  ∀ b ∈ scope.bindings, b.Named p

theorem Scope.bindings_cons (frame : Frame) (outer : Scope) :
    Scope.bindings (frame :: outer) = frame.bindings ++ Scope.bindings outer :=
  List.flatMap_cons

variable {frame : Frame} {p : Program} {name : String} {scope : Scope} {c c' : Context}
  {s : Syntax.Stmt} {s' : Stmt}

theorem Scope.mem_bindings_of_resolve {id : LocalId} (h : scope.resolve p name = .ok (.binding id)) :
    ⟨name, id⟩ ∈ scope.bindings := by
  obtain ⟨frame, hmem, hfind⟩ | ⟨_, _, ⟨⟩⟩ := Scope.resolve_eq_ok h
  obtain ⟨_, hd, hb⟩ | ⟨_, _, _, _, ⟨⟩, _⟩ | ⟨_, _, _, _, ⟨⟩, _⟩ := Frame.find?_eq_ok_some hfind
  cases hd
  exact List.mem_flatMap.mpr ⟨frame, hmem, hb⟩

/-- What a name stands for has that name. -/
theorem Scope.resolve_name (hp : p.Indexed) {d : Definition} (h : scope.resolve p name = .ok d)
    (hnamed : scope.Named p) : p.definitionName? d = some name := by
  obtain ⟨frame, hmem, hfind⟩ | ⟨id, hid, rfl⟩ := Scope.resolve_eq_ok h
  · obtain ⟨id, rfl, hb⟩ | ⟨id, f, i, _, rfl, hf, hi⟩ | ⟨id, m, i, _, rfl, hm, hi⟩ :=
      Frame.find?_eq_ok_some hfind
    · exact Option.map_eq_some_iff.mpr (hnamed _ (List.mem_flatMap.mpr ⟨frame, hmem, hb⟩))
    · exact Option.map_eq_some_iff.mpr (getParameter?_of_findIdx? hf hi)
    · exact Option.map_eq_some_iff.mpr (hp.getField? hm hi)
  · exact Option.map_eq_some_iff.mpr (hp.constant?_eq_some.mp hid)

/-! ## What lowering a statement keeps -/

theorem Binding.Named.grows {p p' : Program} {b : Binding} (h : b.Named p) (hg : p.Grows p') :
    b.Named p' := by
  obtain ⟨l, hl, hname⟩ := h
  exact ⟨l, hg.locals hl, hname⟩

theorem Scope.Named.grows {p p' : Program} (h : scope.Named p) (hg : p.Grows p') : scope.Named p' :=
  fun b hb => (h b hb).grows hg

theorem Scope.Named.cons {outer : Scope} (hframe : ∀ b ∈ frame.bindings, b.Named p)
    (houter : outer.Named p) : Scope.Named p (frame :: outer) := by
  intro b hb
  rw [Scope.bindings_cons] at hb
  obtain hb | hb := List.mem_append.mp hb
  · exact hframe b hb
  · exact houter b hb

/-- A name that is bound joins the bindings of the innermost frame. -/
theorem Scope.mem_bindings_bind {b : Binding} {scope scope' : Scope} (h : scope.bind b = .ok scope')
    (x : Binding) : x ∈ scope'.bindings ↔ x = b ∨ x ∈ scope.bindings := by
  cases Scope.extends_of_bind h with
  | block _ => simp only [Scope.bindings_cons, Frame.bindings, List.cons_append, List.mem_cons]
  | forLoop =>
    simp only [Scope.bindings_cons, Frame.bindings, Option.toList_some, Option.toList_none,
      List.cons_append, List.nil_append, List.mem_cons]

theorem Scope.enclosingModel?_bind {b : Binding} {scope scope' : Scope}
    (h : scope.bind b = .ok scope') : scope'.enclosingModel? = scope.enclosingModel? := by
  cases Scope.extends_of_bind h with
  | block | forLoop => rfl

/-- Only a declaration changes the scope for the statements after it. -/
theorem ElabStmt.scope_cases (h : ElabStmt c s s' c') :
    c'.scope = c.scope ∨ ∃ name t value, s' = .declare ⟨c.program.locals.size⟩ value ∧
      c.scope.bind ⟨name, ⟨c.program.locals.size⟩⟩ = .ok c'.scope ∧
      c'.program = c.program.withLocal ⟨name, t, .declared⟩ := by
  cases h with
  | simple hs => exact .inl rfl
  | declare hname he ht hvoid hbind => exact .inr ⟨_, _, _, rfl, hbind, rfl⟩
  | conditional hne harms hotherwise =>
    exact .inl (hotherwise.adds.2.trans harms.adds.2)
  | forLoop hstart he hte hafter hbody => exact .inl rfl
  | forEach hname he ht hkind hbody => exact .inl rfl

/-- What a statement gives a name to for the statements after it is what it declares. -/
theorem ElabStmt.mem_scope (h : ElabStmt c s s' c') {ids : List LocalId}
    (hids : ∀ id value, s' = .declare id value → id ∈ ids) :
    ∀ b ∈ c'.scope.bindings, b ∈ c.scope.bindings ∨ b.id ∈ ids := by
  intro b hb
  obtain hscope | ⟨name, t, value, hs, hbind, _⟩ := h.scope_cases
  · rw [hscope] at hb
    exact .inl hb
  · obtain rfl | hb := (Scope.mem_bindings_bind hbind b).mp hb
    · exact .inr (hids _ value hs)
    · exact .inl hb

theorem ElabStmt.mem_bindings (h : ElabStmt c s s' c') :
    ∀ b ∈ c'.scope.bindings, b ∈ c.scope.bindings ∨ b.id ∈ s'.binders :=
  h.mem_scope (by rintro _ _ rfl; exact List.mem_cons_self)

theorem ElabPart.mem_bindings {part : Option Syntax.Stmt} {part' : Option Stmt}
    (h : ElabPart c part part' c') :
    ∀ b ∈ c'.scope.bindings, b ∈ c.scope.bindings ∨ b.id ∈ partBinders part' := by
  cases h with
  | none => exact fun b hb => .inl hb
  | some hs => exact hs.mem_bindings

theorem ElabStmt.named (h : ElabStmt c s s' c') (hc : c.scope.Named c.program) :
    c'.scope.Named c'.program := by
  have hg := h.adds.1.grows
  obtain hscope | ⟨name, t, _, _, hbind, hprogram⟩ := h.scope_cases
  · rw [hscope]
    exact hc.grows hg
  · intro b hb
    obtain rfl | hb := (Scope.mem_bindings_bind hbind b).mp hb
    · rw [hprogram]
      exact ⟨_, getLocal?_withLocal_self _ _, rfl⟩
    · exact (hc b hb).grows hg

theorem ElabStmt.enclosingModel? (h : ElabStmt c s s' c') :
    c'.scope.enclosingModel? = c.scope.enclosingModel? := by
  obtain hscope | ⟨name, t, _, _, hbind, _⟩ := h.scope_cases
  · rw [hscope]
  · exact Scope.enclosingModel?_bind hbind

/-! ## What stands in lowered code -/

/-- An expression that was lowered in a scope, or a `null`, whose type comes from elsewhere. -/
def IsPart (p : Program) (scope : Scope) (e' : Expr) : Prop :=
  (∃ e, Elab p scope e e') ∨ ∃ t, e' = .null t

section Parts

variable {p : Program} {scope : Scope} {e : Syntax.Expr} {e' : Expr}

/-- What an expression becomes has the type that it states. -/
theorem Elab.typed (h : Elab p scope e e') : typeOf p e' = .ok e'.stated := by
  cases h with
  | bool _ | int _ | rune _ | string _ | emptyList _ | emptySet _ | emptyMap _ _ | new _ | self _
  | callContains _ _ _ _ | contains _ _ _ _ | length _ _ _ | callPop _ _ | pop _ _ => rfl
  | list _ hitem | set _ hitem =>
    unfold typeOf
    rw [hitem]
    rfl
  | map _ hkey hvalue =>
    unfold typeOf
    rw [hkey, hvalue]
    rfl
  | callFunction _ hf _ _ | callMethod _ _ _ hf _ _ =>
    unfold typeOf
    rw [hf]
    rfl
  | lookup _ _ hta htk hlookup =>
    unfold typeOf
    rw [hta, htk]
    exact congrArg (Except.map Prod.snd) hlookup
  | property _ _ hfield =>
    obtain ⟨_, f, hf, rfl⟩ := resolveField_eq_ok hfield
    unfold typeOf
    rw [Program.definitionType?, hf]
    rfl
  | unary _ ht houtput =>
    unfold typeOf
    rw [ht]
    exact congrArg (Except.map Ty.primitive) houtput
  | binary hl hr htl htr houtput =>
    unfold typeOf
    rw [hl.not_null, hr.not_null, Bool.or_self, Bool.and_false, htl, htr]
    exact congrArg (Except.map Ty.primitive) houtput
  | nullLeft hop _ _ _ =>
    unfold typeOf
    rw [hop]
    rfl
  | nullRight hop _ _ _ =>
    unfold typeOf
    rw [hop, Expr.isNull.eq_def (.null _), Bool.or_true]
    rfl
  | var _ ht =>
    unfold typeOf
    rw [ht]
    rfl

theorem Elab.isPart (h : Elab p scope e e') : IsPart p scope e' :=
  .inl ⟨e, h⟩

theorem ElabAt.isPart {t : Ty} (h : ElabAt p scope t e e') : IsPart p scope e' := by
  cases h with
  | null _ => exact .inr ⟨t, rfl⟩
  | expr he => exact he.isPart

variable {es : List Syntax.Expr} {es' : List Expr}

theorem Elabs.exists_source (h : Elabs p scope es es') {c : Expr} (hc : c ∈ es') :
    ∃ e ∈ es, Elab p scope e c := by
  induction es generalizing es' with
  | nil =>
    cases h
    cases hc
  | cons e es ih =>
    cases h with
    | cons he hes =>
      obtain rfl | hc := List.mem_cons.mp hc
      · exact ⟨e, List.mem_cons_self, he⟩
      · obtain ⟨e', hmem, he'⟩ := ih hes hc
        exact ⟨e', List.mem_cons_of_mem _ hmem, he'⟩

theorem ElabEntries.exists_source {entries : List (Syntax.Expr × Syntax.Expr)}
    {entries' : List (Expr × Expr)} (h : ElabEntries p scope entries entries') {c : Expr}
    (hc : c ∈ entries'.flatMap fun x => [x.1, x.2]) :
    ∃ x ∈ entries, Elab p scope x.1 c ∨ Elab p scope x.2 c := by
  induction entries generalizing entries' with
  | nil =>
    cases h
    cases hc
  | cons x entries ih =>
    cases h with
    | cons hk hv hentries =>
      obtain rfl | hc := List.mem_cons.mp hc
      · exact ⟨_, List.mem_cons_self, .inl hk⟩
      obtain rfl | hc := List.mem_cons.mp hc
      · exact ⟨_, List.mem_cons_self, .inr hv⟩
      · obtain ⟨x', hmem, hx'⟩ := ih hentries hc
        exact ⟨x', List.mem_cons_of_mem _ hmem, hx'⟩

theorem Elabs.parts (h : Elabs p scope es es') : ∀ c ∈ es', IsPart p scope c := by
  intro c hc
  obtain ⟨e, _, he⟩ := h.exists_source hc
  exact he.isPart

/-- What a plain call goes to through `self` is lowered like a `self` that is written down. -/
theorem receiver_isPart {name : String} {receiver : Option Expr} {function : FunctionId}
    (h : resolveFunction p scope name = .ok (receiver, function)) :
    ∀ c ∈ receiver.toList, IsPart p scope c := by
  obtain ⟨id, _, hid, _, _, rfl⟩ | ⟨_, _, rfl⟩ := resolveFunction_iff.mp h
  · exact List.forall_mem_singleton.mpr (Elab.self hid).isPart
  · exact List.forall_mem_nil _

/-- What stands directly in a lowered expression was lowered in the same scope. -/
theorem Elab.parts (h : Elab p scope e e') : ∀ c ∈ e'.children, IsPart p scope c := by
  cases h with
  | list hes _ | set hes _ => exact hes.parts
  | map hentries _ _ =>
    intro c hc
    obtain ⟨x, _, he | he⟩ := hentries.exists_source hc
    · exact he.isPart
    · exact he.isPart
  | callFunction hresolve _ hes _ =>
    exact List.forall_mem_append.mpr ⟨receiver_isPart hresolve, hes.parts⟩
  | callMethod hr _ _ _ hes _ => exact List.forall_mem_cons.mpr ⟨hr.isPart, hes.parts⟩
  | callContains hr _ he _ | contains hr _ he _ | lookup hr he _ _ _ | binary hr he _ _ _ =>
    exact forall_mem_pair hr.isPart he.isPart
  | nullLeft _ he _ _ => exact forall_mem_pair (.inr ⟨_, rfl⟩) he.isPart
  | nullRight _ he _ _ => exact forall_mem_pair he.isPart (.inr ⟨_, rfl⟩)
  | callPop hr _ | property hr _ _ | length hr _ _ | unary hr _ _ | pop hr _ =>
    exact List.forall_mem_singleton.mpr hr.isPart
  | _ => exact List.forall_mem_nil _

theorem ElabSimple.parts {s : Syntax.Stmt} {s' : Stmt} (h : ElabSimple p scope s s') :
    ∀ c ∈ s'.operands, IsPart p scope c := by
  cases h with
  | assign hplace _ _ he _ => exact forall_mem_pair hplace.isPart he.isPart
  | retNone _ _ | brk _ | cont _ => exact List.forall_mem_nil _
  | retSome _ _ he _ => exact List.forall_mem_singleton.mpr he.isPart
  | add ha _ he _ | push ha _ he _ | callAdd ha _ he _ | callPush ha _ he _ =>
    exact forall_mem_pair ha.isPart he.isPart
  | pop ha _ | callPop ha _ => exact List.forall_mem_singleton.mpr ha.isPart
  | callFunction hresolve _ hes _ =>
    exact List.forall_mem_append.mpr ⟨receiver_isPart hresolve, hes.parts⟩
  | callMethod hr _ _ _ hes _ => exact List.forall_mem_cons.mpr ⟨hr.isPart, hes.parts⟩

end Parts

end Scribe.Lowering
