import Scribe.Proofs.Erasure
import Scribe.Proofs.History
import Scribe.Proofs.Resolve
import Scribe.Proofs.WellFormed

/-!
# Lowering keeps what a module says

A lowered program, written back, is the module that it came from, up to the forms that have two
spellings (`lower_faithful`). Nothing is lost, doubled, put elsewhere or attached to another
definition.

Each rule of lowering is written back on its own. A name is found again because what it was resolved
to has that name, and stays so while the program grows.
-/

namespace Scribe.Core

open Scribe.Lowering

/-- The methods of models are functions of the same name that belong to the model. -/
def Program.MethodsNamed (p : Program) : Prop :=
  ∀ id m, p.getModel? id = some m → ∀ x ∈ m.methods,
    ∃ f, p.getFunction? x.function = some f ∧ f.name = x.name ∧ f.owner = some id

namespace Program

variable {p : Program} {e : Expr}

theorem isSet_of_typeOf {item : Ty} (h : typeOf p e = .ok (.set item)) : p.isSet e = true := by
  rw [isSet, h]

theorem isList_of_typeOf {item : Ty} (h : typeOf p e = .ok (.list item)) : p.isList e = true := by
  rw [isList, h]

theorem isInstance_of_typeOf {id : ModelId} (h : typeOf p e = .ok (.model id)) :
    p.isInstance (some id) e = true := by
  rw [isInstance, h]
  exact beq_self_eq_true _

end Program

end Scribe.Core

namespace Scribe.Lowering

open Scribe.Core

/-! ## Types and names -/

/-- The names of the methods of the model around a place. -/
def Scope.Methods (p : Program) (scope : Scope) (methods : List String) : Prop :=
  match scope.enclosingModel? with
  | none => methods = []
  | some id => ∃ m, p.getModel? id = some m ∧ ∀ name, name ∈ methods ↔ (m.method? name).isSome = true

variable {q q' : Program} {ids : List LocalId} {scope : Scope} {methods : List String}

theorem AddsLocals.getModel? (h : AddsLocals q q' ids) (id : ModelId) :
    q'.getModel? id = q.getModel? id := by
  rw [h.same]
  rfl

/-- A scope in the same model, in a program with more locals. -/
theorem Scope.Methods.of_adds {scope' : Scope} (h : scope.Methods q methods)
    (hadds : AddsLocals q q' ids) (hmodel : scope'.enclosingModel? = scope.enclosingModel?) :
    scope'.Methods q' methods := by
  unfold Scope.Methods at h ⊢
  rw [hmodel]
  simp only [hadds.getModel?]
  exact h

theorem Scope.Methods.of_stripped {p : Program} (h : scope.Methods p methods)
    (hstripped : q.stripped = p.stripped) : scope.Methods q methods := by
  unfold Scope.Methods at h ⊢
  cases hmodel : scope.enclosingModel? with
  | none =>
    rw [hmodel] at h
    exact h
  | some id =>
    rw [hmodel] at h
    obtain ⟨m, hm, hmethods⟩ := h
    obtain ⟨m', hm', hsame⟩ := getModel?_of_stripped hstripped.symm hm
    obtain ⟨_, _, _, _, hmap⟩ := Model.same_of_stripped hsame
    refine ⟨m', hm', fun name => ?_⟩
    rw [hmethods, Model.method?, Model.method?, hmap]

theorem Scope.Methods.of_indexed {p : Program} (hp : p.Indexed) {id : ModelId} {m : Model}
    (hm : p.getModel? id = some m) (hscope : scope.enclosingModel? = some id)
    (hnames : m.methods.map (·.name) = methods) : scope.Methods p methods := by
  unfold Scope.Methods
  rw [hscope]
  refine ⟨m, hm, fun name => ?_⟩
  rw [hp.isSome_method? hm, hnames]

section Names

variable {q p : Program} {scope : Scope} {methods : List String} {t : Syntax.TypeExpr} {t' : Ty}

theorem eraseType_of_lowerType (hmodels : ∀ {name id}, q.model? name = some id →
    ∃ m, p.getModel? id = some m ∧ m.name = name) (h : lowerType q t = .ok t') :
    p.eraseType t' = some t := by
  induction t generalizing t' with
  | bool | int | rune | string | void =>
    cases h
    rfl
  | list item ih | set item ih =>
    simp only [lowerType, Result.bind_eq_ok, requireValueType_eq_ok, Result.pure_eq_ok] at h
    obtain ⟨s, hs, _, ⟨_, rfl⟩, rfl⟩ := h
    rw [Program.eraseType, ih hs]
    rfl
  | map key value ihk ihv =>
    simp only [lowerType, Result.bind_eq_ok, requireValueType_eq_ok, Result.pure_eq_ok] at h
    obtain ⟨k, hk, _, ⟨_, rfl⟩, v, hv, _, ⟨_, rfl⟩, rfl⟩ := h
    rw [Program.eraseType, ihk hk, ihv hv]
    rfl
  | model name =>
    simp only [lowerType, Result.bind_eq_ok, resolveModel_eq_ok, Result.pure_eq_ok] at h
    obtain ⟨id, hid, rfl⟩ := h
    obtain ⟨m, hm, rfl⟩ := hmodels hid
    rw [Program.eraseType, hm]
    rfl

variable (hq : q.Indexed) (hg : q.Grows p)

include hq hg

theorem eraseType_of_lowerValueType (h : lowerValueType q t = .ok t') :
    p.eraseType t' = some t := by
  refine eraseType_of_lowerType (fun hid => ?_) (lowerValueType_eq_ok.mp h).1
  obtain ⟨m, hm, rfl⟩ := hq.model?_eq_some.mp hid
  obtain ⟨m', hm', hgrows⟩ := hg.models hm
  exact ⟨m', hm', hgrows.name⟩

/-! ## Calls -/

variable (hp : p.MethodsNamed)

include hp

variable {name : String} {function : FunctionId}

/-- A method that is found in a model is written back under the name it was found by. -/
theorem getFunction?_of_method?_grows {id : ModelId} {m : Model} (hm : q.getModel? id = some m)
    (hmethod : m.method? name = some function) :
    ∃ f, p.getFunction? function = some f ∧ f.name = name ∧ f.owner = some id := by
  obtain ⟨m', hm', hgrows⟩ := hg.models hm
  exact hp _ _ hm' _ (hgrows.methods.subset ((hq.method?_eq_some hm).mp hmethod))

/-- The target of a plain call. -/
theorem eraseTarget_of_resolveFunction {receiver : Option Expr}
    (hresolve : resolveFunction q scope name = .ok (receiver, function))
    (hm : scope.Methods q methods) :
    (name ∉ methods ∧ p.eraseTarget function receiver = some (.function name)) ∨
      (name ∈ methods ∧ p.eraseTarget function receiver = some (.method .self name)) := by
  obtain ⟨id, m, hmodel, hget, hmethod, rfl⟩ | ⟨hnone, hfound, rfl⟩ :=
    resolveFunction_iff.mp hresolve
  · unfold Scope.Methods at hm
    rw [hmodel] at hm
    obtain ⟨m', hm', hmethods⟩ := hm
    cases hget.symm.trans hm'
    obtain ⟨f, hf, rfl, howner⟩ := getFunction?_of_method?_grows hq hg hp hget hmethod
    refine .inr ⟨(hmethods _).mpr (by rw [hmethod]; rfl), ?_⟩
    have hself : p.isInstance (some id) (.self id) = true := Program.isInstance_of_typeOf rfl
    simp [Program.eraseTarget, hf, howner, hself, Program.eraseExpr]
  · obtain ⟨f, hf, howner, rfl⟩ := hq.function?_eq_some.mp hfound
    obtain ⟨f', hf', hsame⟩ := hg.functions hf
    refine .inl ⟨?_, ?_⟩
    · unfold Scope.Methods at hm
      cases hmodel : scope.enclosingModel? with
      | none =>
        rw [hmodel] at hm
        rw [show methods = [] from hm]
        exact List.not_mem_nil
      | some id =>
        rw [hmodel] at hm
        obtain ⟨m, hm, hmethods⟩ := hm
        obtain ⟨m', hm', hmethod⟩ := hnone id hmodel
        cases hm.symm.trans hm'
        rw [hmethods, hmethod]
        exact Bool.false_ne_true
    · simp [Program.eraseTarget, hf', hsame.name, hsame.owner, howner]

/-- The target of a call with a receiver. -/
theorem eraseTarget_of_resolveMethod {t : Ty} {r' : Expr} {s : Syntax.Expr}
    (ht : typeOf q r' = .ok t) (hresolve : resolveMethod q t name = .ok function)
    (hs : p.eraseExpr r' = some s) : p.eraseTarget function (some r') = some (.method s name) := by
  obtain ⟨id, m, rfl, hm, hmethod⟩ := resolveMethod_eq_ok.mp hresolve
  obtain ⟨f, hf, rfl, howner⟩ := getFunction?_of_method?_grows hq hg hp hm hmethod
  have hinstance := Program.isInstance_of_typeOf (typeOf_grows hg r' ht)
  simp [Program.eraseTarget, hf, howner, hinstance, hs]

/-! ## Expressions -/

end Names

/-- What is lowered in a context can be written back: `methods` are the methods of the model around
it, and the frames tell the truth about names. -/
structure Legible (methods : List String) (c : Context) : Prop where
  indexed : c.program.Indexed
  methods : c.scope.Methods c.program methods
  named : c.scope.Named c.program

section Erases

variable {p : Program} {methods : List String}

mutual

/-- What an expression became is written back as that expression, up to spelling. -/
theorem Elab.erases {q scope e e'} (h : Elab q scope e e') (hc : Legible methods ⟨q, scope⟩)
    (hp : p.MethodsNamed) (hg : q.Grows p) :
    ∃ s, p.eraseExpr e' = some s ∧ Syntax.Expr.Respelled methods e s := by
  cases h with
  | bool | int | rune | string => exact ⟨_, rfl, .leaf rfl⟩
  | list hes hitem =>
    obtain ⟨ss, hss, hall⟩ := hes.erases hc hp hg
    exact ⟨_, by rw [Program.eraseExpr, hss]; rfl, .list hall⟩
  | set hes hitem =>
    obtain ⟨ss, hss, hall⟩ := hes.erases hc hp hg
    exact ⟨_, by rw [Program.eraseExpr, hss]; rfl, .set hall⟩
  | map hentries hkey hvalue =>
    obtain ⟨ss, hss, hkeys, hvalues⟩ := hentries.erases hc hp hg
    exact ⟨_, by rw [Program.eraseExpr, hss]; rfl, .map hkeys hvalues⟩
  | emptyList hitem | emptySet hitem =>
    have ht := eraseType_of_lowerValueType hc.indexed hg hitem
    exact ⟨_, by rw [Program.eraseExpr, ht]; rfl, .leaf rfl⟩
  | emptyMap hkey hvalue =>
    have hk := eraseType_of_lowerValueType hc.indexed hg hkey
    have hv := eraseType_of_lowerValueType hc.indexed hg hvalue
    exact ⟨_, by rw [Program.eraseExpr, hk, hv]; rfl, .leaf rfl⟩
  | callFunction hresolve hf hes htypes =>
    obtain ⟨ss, hss, hall⟩ := hes.erases hc hp hg
    obtain ⟨hname, htarget⟩ | ⟨hname, htarget⟩ :=
      eraseTarget_of_resolveFunction hc.indexed hg hp hresolve hc.methods
    · exact ⟨_, by rw [Program.eraseExpr, htarget, hss]; rfl, .call hname hall⟩
    · exact ⟨_, by rw [Program.eraseExpr, htarget, hss]; rfl, .callSelf hname hall⟩
  | callMethod hr ht hresolve hf hes htypes =>
    obtain ⟨s, hs, hrs⟩ := hr.erases hc hp hg
    obtain ⟨ss, hss, hall⟩ := hes.erases hc hp hg
    have htarget := eraseTarget_of_resolveMethod hc.indexed hg hp ht hresolve hs
    exact ⟨_, by rw [Program.eraseExpr, htarget, hss]; rfl, .callMethod hrs hall⟩
  | callContains hr ht he hte =>
    obtain ⟨s, hs, hrs⟩ := hr.erases hc hp hg
    obtain ⟨v, hv, hev⟩ := he.erases hc hp hg
    have hset := Program.isSet_of_typeOf (typeOf_grows hg _ ht)
    exact ⟨_, by simp [Program.eraseExpr, hset, hs, hv], .callContains hrs hev⟩
  | callPop hr ht =>
    obtain ⟨s, hs, hrs⟩ := hr.erases hc hp hg
    have hlist := Program.isList_of_typeOf (typeOf_grows hg _ ht)
    exact ⟨_, by simp [Program.eraseExpr, hlist, hs], .callPop hrs⟩
  | lookup ha hk hta htk hlookup =>
    obtain ⟨s, hs, has⟩ := ha.erases hc hp hg
    obtain ⟨v, hv, hkv⟩ := hk.erases hc hp hg
    exact ⟨_, by rw [Program.eraseExpr, hs, hv]; rfl, .lookup has hkv⟩
  | property hr ht hfield =>
    obtain ⟨s, hs, hrs⟩ := hr.erases hc hp hg
    obtain ⟨rfl, m, f, hmodel, hi, hf, rfl⟩ := resolveField_iff.mp hfield
    obtain ⟨f', hf', rfl⟩ := (hc.indexed.field?_eq_some hmodel).mp hi
    have hget := hg.getField? (Option.bind_eq_some_iff.mpr ⟨m, hmodel, hf'⟩)
    have hinstance := Program.isInstance_of_typeOf (typeOf_grows hg _ ht)
    exact ⟨_, by simp [Program.eraseExpr, hinstance, hs, hget], .property hrs⟩
  | contains ha hta he hte =>
    obtain ⟨s, hs, has⟩ := ha.erases hc hp hg
    obtain ⟨v, hv, hev⟩ := he.erases hc hp hg
    have hset := Program.isSet_of_typeOf (typeOf_grows hg _ hta)
    exact ⟨_, by simp [Program.eraseExpr, hset, hs, hv], .contains has hev⟩
  | new hid =>
    obtain ⟨m, hmodel, rfl⟩ := hc.indexed.model?_eq_some.mp hid
    obtain ⟨m', hm', hgrows⟩ := hg.models hmodel
    exact ⟨_, by rw [Program.eraseExpr, hm', ← hgrows.name]; rfl, .leaf rfl⟩
  | length he ht hkind =>
    obtain ⟨s, hs, hes⟩ := he.erases hc hp hg
    exact ⟨_, by rw [Program.eraseExpr, hs]; rfl, .length hes⟩
  | unary he ht houtput =>
    obtain ⟨s, hs, hes⟩ := he.erases hc hp hg
    exact ⟨_, by rw [Program.eraseExpr, hs]; rfl, .unary hes⟩
  | binary hl hr htl htr houtput =>
    obtain ⟨s, hs, hls⟩ := hl.erases hc hp hg
    obtain ⟨v, hv, hrv⟩ := hr.erases hc hp hg
    exact ⟨_, by rw [Program.eraseExpr, hs, hv]; rfl, .binary hls hrv⟩
  | nullLeft hop he ht hvoid =>
    obtain ⟨s, hs, hes⟩ := he.erases hc hp hg
    exact ⟨_, by rw [Program.eraseExpr, hs]; rfl, .binary (.leaf rfl) hes⟩
  | nullRight hop he ht hvoid =>
    obtain ⟨s, hs, hes⟩ := he.erases hc hp hg
    exact ⟨_, by rw [Program.eraseExpr, hs]; rfl, .binary hes (.leaf rfl)⟩
  | var hd ht =>
    have hname := hg.definitionName? (Scope.resolve_name hc.indexed hd hc.named)
    exact ⟨_, by rw [Program.eraseExpr, hname]; rfl, .leaf rfl⟩
  | self hid => exact ⟨_, rfl, .leaf rfl⟩
  | pop ha hta =>
    obtain ⟨s, hs, has⟩ := ha.erases hc hp hg
    have hlist := Program.isList_of_typeOf (typeOf_grows hg _ hta)
    exact ⟨_, by simp [Program.eraseExpr, hlist, hs], .pop has⟩

theorem Elabs.erases {q scope es es'} (h : Elabs q scope es es') (hc : Legible methods ⟨q, scope⟩)
    (hp : p.MethodsNamed) (hg : q.Grows p) :
    ∃ ss, p.eraseExprs es' = some ss ∧ List.Forall₂ (Syntax.Expr.Respelled methods) es ss := by
  cases h with
  | nil => exact ⟨[], rfl, .nil⟩
  | cons he hes =>
    obtain ⟨s, hs, hes'⟩ := he.erases hc hp hg
    obtain ⟨ss, hss, hall⟩ := hes.erases hc hp hg
    exact ⟨_, by rw [Program.eraseExprs, hs, hss]; rfl, .cons hes' hall⟩

theorem ElabEntries.erases {q scope entries entries'} (h : ElabEntries q scope entries entries')
    (hc : Legible methods ⟨q, scope⟩) (hp : p.MethodsNamed) (hg : q.Grows p) :
    ∃ ss, p.eraseEntries entries' = some ss ∧
      List.Forall₂ (Syntax.Expr.Respelled methods) (entries.map (·.1)) (ss.map (·.1)) ∧
      List.Forall₂ (Syntax.Expr.Respelled methods) (entries.map (·.2)) (ss.map (·.2)) := by
  cases h with
  | nil => exact ⟨[], rfl, .nil, .nil⟩
  | cons hk hv hentries =>
    obtain ⟨k, hk', hks⟩ := hk.erases hc hp hg
    obtain ⟨v, hv', hvs⟩ := hv.erases hc hp hg
    obtain ⟨ss, hss, hkeys, hvalues⟩ := hentries.erases hc hp hg
    exact ⟨(k, v) :: ss, by rw [Program.eraseEntries, hk', hv', hss]; rfl, .cons hks hkeys,
      .cons hvs hvalues⟩

end

theorem ElabAt.erases {q : Program} {scope : Scope} {t : Ty} {e : Syntax.Expr} {e' : Expr}
    (h : ElabAt q scope t e e') (hc : Legible methods ⟨q, scope⟩) (hp : p.MethodsNamed)
    (hg : q.Grows p) : ∃ s, p.eraseExpr e' = some s ∧ Syntax.Expr.Respelled methods e s := by
  cases h with
  | null hvoid => exact ⟨_, rfl, .leaf rfl⟩
  | expr he => exact he.erases hc hp hg

/-! ## Statements -/

namespace Legible

variable {c c' : Context}

/-- A place in the same model that knows more locals. -/
theorem of_adds (hc : Legible methods c) {ids : List LocalId}
    (hadds : AddsLocals c.program c'.program ids)
    (hmodel : c'.scope.enclosingModel? = c.scope.enclosingModel?)
    (hnamed : c'.scope.Named c'.program) : Legible methods c' :=
  ⟨hadds.indexed hc.indexed, hc.methods.of_adds hadds hmodel, hnamed⟩

theorem stmt (hc : Legible methods c) {s : Syntax.Stmt} {s' : Stmt} (h : ElabStmt c s s' c') :
    Legible methods c' :=
  hc.of_adds h.adds.1 h.enclosingModel? (h.named hc.named)

theorem part (hc : Legible methods c) {s : Option Syntax.Stmt} {s' : Option Stmt}
    (h : ElabPart c s s' c') : Legible methods c' := by
  cases h with
  | none => exact hc
  | some hs => exact hc.stmt hs

/-- The scope that a statement is left with knows what was added inside. -/
theorem leave (hc : Legible methods c) {q : Program} {ids : List LocalId}
    (hadds : AddsLocals c.program q ids) : Legible methods { c with program := q } :=
  hc.of_adds hadds rfl (hc.named.grows hadds.grows)

theorem block (hc : Legible methods c) :
    Legible methods { c with scope := .block [] :: c.scope } :=
  hc.of_adds (.refl _) rfl (.cons (List.forall_mem_nil _) hc.named)

theorem loop (hc : Legible methods c) :
    Legible methods { c with scope := .forLoop none :: c.scope } :=
  hc.of_adds (.refl _) rfl (.cons (List.forall_mem_nil _) hc.named)

theorem item (hc : Legible methods c) (name : String) (t : Ty) :
    Legible methods ⟨c.program.withLocal ⟨name, t, .forEachItem⟩,
      .forEach ⟨name, ⟨c.program.locals.size⟩⟩ :: c.scope⟩ := by
  refine hc.of_adds (.single _ _) rfl (.cons ?_ (hc.named.grows (AddsLocals.single _ _).grows))
  exact List.forall_mem_singleton.mpr ⟨_, getLocal?_withLocal_self _ _, rfl⟩

end Legible

theorem ElabSimple.erases {q : Program} {scope : Scope} {s : Syntax.Stmt} {s' : Stmt}
    (h : ElabSimple q scope s s') (hc : Legible methods ⟨q, scope⟩) (hp : p.MethodsNamed)
    (hg : q.Grows p) : ∃ t, p.eraseStmt s' = some t ∧ Syntax.Stmt.Respelled methods s t := by
  cases h with
  | assign hplace hisPlace ht he hte =>
    obtain ⟨a, ha, hrespelled⟩ := hplace.erases hc hp hg
    obtain ⟨v, hv, hrespelled'⟩ := he.erases hc hp hg
    exact ⟨_, by rw [Program.eraseStmt, ha, hv]; rfl, .assign hrespelled hrespelled'⟩
  | retNone hcallable hvoid => exact ⟨_, rfl, .ret .none⟩
  | retSome hcallable ht he hte =>
    obtain ⟨v, hv, hrespelled⟩ := he.erases hc hp hg
    exact ⟨_, by rw [Program.eraseStmt, hv]; rfl, .ret (.some hrespelled)⟩
  | brk hloop => exact ⟨_, rfl, .brk⟩
  | cont hloop => exact ⟨_, rfl, .cont⟩
  | add ha hta he hte =>
    obtain ⟨a, ha', hrespelled⟩ := ha.erases hc hp hg
    obtain ⟨v, hv, hrespelled'⟩ := he.erases hc hp hg
    have hset := Program.isSet_of_typeOf (typeOf_grows hg _ hta)
    exact ⟨_, by simp [Program.eraseStmt, hset, ha', hv], .add hrespelled hrespelled'⟩
  | push ha hta he hte =>
    obtain ⟨a, ha', hrespelled⟩ := ha.erases hc hp hg
    obtain ⟨v, hv, hrespelled'⟩ := he.erases hc hp hg
    have hlist := Program.isList_of_typeOf (typeOf_grows hg _ hta)
    exact ⟨_, by simp [Program.eraseStmt, hlist, ha', hv], .push hrespelled hrespelled'⟩
  | pop ha hta =>
    obtain ⟨a, ha', hrespelled⟩ := ha.erases hc hp hg
    have hlist := Program.isList_of_typeOf (typeOf_grows hg _ hta)
    exact ⟨_, by simp [Program.eraseStmt, hlist, ha'], .pop hrespelled⟩
  | callFunction hresolve hf hes htypes =>
    obtain ⟨ss, hss, hall⟩ := hes.erases hc hp hg
    obtain ⟨hname, htarget⟩ | ⟨hname, htarget⟩ :=
      eraseTarget_of_resolveFunction hc.indexed hg hp hresolve hc.methods
    · exact ⟨_, by rw [Program.eraseStmt, htarget, hss]; rfl, .call hname hall⟩
    · exact ⟨_, by rw [Program.eraseStmt, htarget, hss]; rfl, .callSelf hname hall⟩
  | callMethod hr ht hresolve hf hes htypes =>
    obtain ⟨r, hr', hrespelled⟩ := hr.erases hc hp hg
    obtain ⟨ss, hss, hall⟩ := hes.erases hc hp hg
    have htarget := eraseTarget_of_resolveMethod hc.indexed hg hp ht hresolve hr'
    exact ⟨_, by rw [Program.eraseStmt, htarget, hss]; rfl, .callMethod hrespelled hall⟩
  | callAdd hr ht he hte =>
    obtain ⟨r, hr', hrespelled⟩ := hr.erases hc hp hg
    obtain ⟨v, hv, hrespelled'⟩ := he.erases hc hp hg
    have hset := Program.isSet_of_typeOf (typeOf_grows hg _ ht)
    exact ⟨_, by simp [Program.eraseStmt, hset, hr', hv], .callAdd hrespelled hrespelled'⟩
  | callPush hr ht he hte =>
    obtain ⟨r, hr', hrespelled⟩ := hr.erases hc hp hg
    obtain ⟨v, hv, hrespelled'⟩ := he.erases hc hp hg
    have hlist := Program.isList_of_typeOf (typeOf_grows hg _ ht)
    exact ⟨_, by simp [Program.eraseStmt, hlist, hr', hv], .callPush hrespelled hrespelled'⟩
  | callPop hr ht =>
    obtain ⟨r, hr', hrespelled⟩ := hr.erases hc hp hg
    have hlist := Program.isList_of_typeOf (typeOf_grows hg _ ht)
    exact ⟨_, by simp [Program.eraseStmt, hlist, hr'], .callPop hrespelled⟩

mutual

/-- What a statement became is written back as that statement, up to spelling. -/
theorem ElabStmt.erases {c c' s s'} (h : ElabStmt c s s' c') (hc : Legible methods c)
    (hp : p.MethodsNamed) (hg : c'.program.Grows p) :
    ∃ t, p.eraseStmt s' = some t ∧ Syntax.Stmt.Respelled methods s t := by
  cases h with
  | simple hs => exact hs.erases hc hp hg
  | declare hname he ht hvoid hbind =>
    obtain ⟨v, hv, hrespelled⟩ := he.erases hc hp ((AddsLocals.single _ _).grows.trans hg)
    have hlocal := hg.locals (getLocal?_withLocal_self _ _)
    exact ⟨_, by rw [Program.eraseStmt, hlocal, hv]; rfl, .declare hrespelled⟩
  | conditional hne harms hotherwise =>
    obtain ⟨hadds, hscope⟩ := harms.adds
    have hc1 : Legible methods _ :=
      hc.of_adds hadds (by rw [hscope]) (by rw [hscope]; exact hc.named.grows hadds.grows)
    obtain ⟨as, has, hconditions, hblocks⟩ :=
      harms.erases hc hp (hotherwise.adds.1.grows.trans hg)
    obtain ⟨o, ho, hrespelled⟩ := hotherwise.erases hc1 hp hg
    exact ⟨_, by rw [Program.eraseStmt, has, ho]; rfl, .conditional hconditions hblocks hrespelled⟩
  | forLoop hstart he hte hafter hbody =>
    have hg2 := hbody.adds.1.grows.trans hg
    have hg1 := hafter.adds.1.grows.trans hg2
    have hc1 := hc.loop.part hstart
    have hc2 := hc1.part hafter
    obtain ⟨a, ha, hrespelled1⟩ := hstart.erases hc.loop hp hg1
    obtain ⟨v, hv, hrespelled2⟩ := he.erases hc1 hp hg1
    obtain ⟨b, hb, hrespelled3⟩ := hafter.erases hc1 hp hg2
    obtain ⟨ss, hss, hrespelled4⟩ := hbody.erases hc2.block hp hg
    exact ⟨_, by rw [Program.eraseStmt, ha, hv, hb, hss]; rfl,
      .forLoop hrespelled1 hrespelled2 hrespelled3 hrespelled4⟩
  | forEach hname he ht hkind hbody =>
    have hg1 := hbody.adds.1.grows.trans hg
    obtain ⟨v, hv, hrespelled⟩ := he.erases hc hp ((AddsLocals.single _ _).grows.trans hg1)
    obtain ⟨ss, hss, hrespelled'⟩ := hbody.erases (hc.item _ _).block hp hg
    have hlocal := hg1.locals (getLocal?_withLocal_self _ _)
    exact ⟨_, by rw [Program.eraseStmt, hlocal, hv, hss]; rfl, .forEach hrespelled hrespelled'⟩

theorem ElabStmts.erases {c c' ss ss'} (h : ElabStmts c ss ss' c') (hc : Legible methods c)
    (hp : p.MethodsNamed) (hg : c'.program.Grows p) :
    ∃ ts, p.eraseBlock ss' = some ts ∧ List.Forall₂ (Syntax.Stmt.Respelled methods) ss ts := by
  cases h with
  | nil => exact ⟨[], rfl, .nil⟩
  | cons hs hss =>
    obtain ⟨t, ht, hrespelled⟩ := hs.erases hc hp (hss.adds.1.grows.trans hg)
    obtain ⟨ts, hts, hall⟩ := hss.erases (hc.stmt hs) hp hg
    exact ⟨_, by rw [Program.eraseBlock, ht, hts]; rfl, .cons hrespelled hall⟩

theorem ElabPart.erases {c c' part part'} (h : ElabPart c part part' c') (hc : Legible methods c)
    (hp : p.MethodsNamed) (hg : c'.program.Grows p) :
    ∃ t, p.erasePart part' = some t ∧ Option.Rel (Syntax.Stmt.Respelled methods) part t := by
  cases h with
  | none => exact ⟨none, rfl, .none⟩
  | some hs =>
    obtain ⟨t, ht, hrespelled⟩ := hs.erases hc hp hg
    exact ⟨_, by rw [Program.erasePart, ht]; rfl, .some hrespelled⟩

theorem ElabArms.erases {c c' arms arms'} (h : ElabArms c arms arms' c') (hc : Legible methods c)
    (hp : p.MethodsNamed) (hg : c'.program.Grows p) :
    ∃ as, p.eraseArms arms' = some as ∧
      List.Forall₂ (Syntax.Expr.Respelled methods) (arms.map (·.1)) (as.map (·.1)) ∧
      List.Forall₂ (List.Forall₂ (Syntax.Stmt.Respelled methods)) (arms.map (·.2))
        (as.map (·.2)) := by
  cases h with
  | nil => exact ⟨[], rfl, .nil, .nil⟩
  | cons he hte hblock harms =>
    have hg1 := harms.adds.1.grows.trans hg
    obtain ⟨v, hv, hrespelled⟩ := he.erases hc hp (hblock.adds.1.grows.trans hg1)
    obtain ⟨ts, hts, hrespelled'⟩ := hblock.erases hc.block hp hg1
    obtain ⟨as, has, hconditions, hblocks⟩ := harms.erases (hc.leave hblock.adds.1) hp hg
    exact ⟨(v, ts) :: as, by rw [Program.eraseArms, hv, hts, has]; rfl,
      .cons hrespelled hconditions, .cons hrespelled' hblocks⟩

theorem ElabOtherwise.erases {c c' otherwise otherwise'}
    (h : ElabOtherwise c otherwise otherwise' c') (hc : Legible methods c) (hp : p.MethodsNamed)
    (hg : c'.program.Grows p) :
    ∃ o, p.eraseOtherwise otherwise' = some o ∧
      Option.Rel (List.Forall₂ (Syntax.Stmt.Respelled methods)) otherwise o := by
  cases h with
  | none => exact ⟨none, rfl, .none⟩
  | some hblock =>
    obtain ⟨ts, hts, hrespelled⟩ := hblock.erases hc.block hp hg
    exact ⟨_, by rw [Program.eraseOtherwise, hts]; rfl, .some hrespelled⟩

end

end Erases

/-! ## Definitions -/

variable {α β : Type} {f : α → Option β} {xs : List α}

/-- Lists whose members correspond can be written back member by member. -/
theorem exists_mapM_of_forall₂ {γ : Type} {R : γ → β → Prop} {zs : List γ}
    (h : List.Forall₂ (fun z x => ∃ y, f x = some y ∧ R z y) zs xs) :
    ∃ ys, xs.mapM f = some ys ∧ List.Forall₂ R zs ys := by
  induction h with
  | nil => exact ⟨[], rfl, .nil⟩
  | cons hx _ ih =>
    obtain ⟨y, hy, hR⟩ := hx
    obtain ⟨ys, hys, hall⟩ := ih
    exact ⟨y :: ys, by rw [List.mapM_cons, hy, hys]; rfl, .cons hR hall⟩

theorem mapM_of_forall₂ {zs : List β} (h : List.Forall₂ (fun z x => f x = some z) zs xs) :
    xs.mapM f = some zs := by
  obtain ⟨ys, hys, hall⟩ := exists_mapM_of_forall₂ (R := Eq) (h.imp fun z _ hx => ⟨z, hx, rfl⟩)
  rw [List.forall₂_eq_eq_eq] at hall
  rw [hys, hall]

section Definitions

variable {p : Program} {methods : List String}

/-- A body is written back as the block it was made from, up to spelling. -/
theorem MadeFrom.erases {callable : Callable} {scope : Scope} {block : Syntax.Block}
    (h : MadeFrom p callable scope block) (hi : p.Indexed) (hp : p.MethodsNamed)
    (hm : scope.Methods p methods) (hn : scope.Named p) :
    ∃ body ts, p.body? callable = some body ∧ p.eraseBlock body = some ts ∧
      Syntax.Block.Respelled methods block ts := by
  obtain ⟨q, q', body, hlowers, hbody, hg, hstripped, hframes⟩ := h
  obtain ⟨c1, hblock, rfl⟩ := hlowers.block
  have hgq : q.Grows p := hblock.adds.1.grows.trans hg
  have hc : Legible methods ⟨q, scope⟩ := by
    refine ⟨?_, hm.of_stripped hstripped, ?_⟩
    · rw [← Program.indexed_stripped] at hi ⊢
      exact hstripped ▸ hi
    intro b hb
    obtain ⟨frame, hframe, hmem⟩ := List.mem_flatMap.mp hb
    obtain ⟨_, l, hl⟩ := (hframes frame hframe).bindings b hmem
    obtain ⟨l', hl', hname⟩ := hn b hb
    cases (hgq.locals hl).symm.trans hl'
    exact ⟨l, hl, hname⟩
  obtain ⟨ts, hts, hrespelled⟩ := hblock.erases hc.block hp hg
  exact ⟨body, ts, hbody, hts, hrespelled⟩

theorem FunctionMade.erases {outer : Scope} {owner : Option ModelId} {f : Syntax.Function}
    {id : FunctionId} (h : FunctionMade p outer owner f id) (hi : p.Indexed) (hp : p.MethodsNamed)
    (hm : Scope.Methods p (.function id :: outer) methods) (hn : outer.Named p) :
    ∃ f', p.eraseFunction id = some f' ∧ Syntax.Function.Respelled methods f f' := by
  obtain ⟨⟨g, hg, hsignature⟩, hbody⟩ := h
  obtain ⟨body, ts, hbody, hts, hrespelled⟩ :=
    hbody.erases hi hp hm (.cons (List.forall_mem_nil _) hn)
  rw [Program.body?, hg, Option.map_some] at hbody
  cases hbody
  have hparameters : g.parameters.mapM p.eraseParameter = some f.parameters := by
    refine mapM_of_forall₂ (hsignature.parameters.imp ?_)
    intro q q' hq
    rw [Program.eraseParameter, eraseType_of_lowerValueType hi (.refl p) hq.type, hq.name]
    rfl
  have hreturn := eraseType_of_lowerType hi.model?_eq_some.mp hsignature.returnType
  refine ⟨⟨g.name, f.parameters, f.returnType, ts⟩, ?_, hsignature.name, rfl, rfl, hrespelled⟩
  rw [Program.eraseFunction, hg]
  simp [hparameters, hreturn, hts]

section Models

variable {id : ModelId} {md : Syntax.Model} {model : Model} (hi : p.Indexed)
  (hp : p.MethodsNamed) (hmodel : p.getModel? id = some model)
  (hnames : model.methods.map (·.name) = methods)

include hi hp hmodel hnames

theorem EqualityMade.erases {e : Option Syntax.Equality} (h : EqualityMade p id e) :
    ∃ e', model.equality.mapM p.eraseEquality = some e' ∧
      Option.Rel (Syntax.Equality.Respelled methods) e e' := by
  cases e with
  | none =>
    unfold EqualityMade at h
    rw [Program.body?, hmodel, Option.bind_some, Option.map_eq_none_iff] at h
    exact ⟨none, by rw [h]; rfl, .none⟩
  | some e =>
    obtain ⟨_, other, hother, hlocal, hmade⟩ := h
    obtain ⟨body, ts, hbody, hts, hrespelled⟩ :=
      hmade.erases hi hp (.of_indexed hi hmodel rfl hnames)
        (.cons (List.forall_mem_singleton.mpr ⟨_, hlocal, rfl⟩) (List.forall_mem_nil _))
    rw [Program.other?, hmodel, Option.bind_some, Option.map_eq_some_iff] at hother
    obtain ⟨e', he', rfl⟩ := hother
    rw [Program.body?, hmodel, Option.bind_some, he', Option.map_some] at hbody
    cases hbody
    have herase : p.eraseEquality e' = some ⟨e.other, ts⟩ := by
      rw [Program.eraseEquality, hlocal, hts]
      rfl
    exact ⟨some ⟨e.other, ts⟩, by rw [he', Option.mapM_some, herase]; rfl, .some ⟨rfl, hrespelled⟩⟩

theorem HashingMade.erases {block : Option Syntax.Block} (h : HashingMade p id block) :
    ∃ b, model.hashing.mapM p.eraseBlock = some b ∧
      Option.Rel (Syntax.Block.Respelled methods) block b := by
  cases block with
  | none =>
    unfold HashingMade at h
    rw [Program.body?, hmodel, Option.bind_some] at h
    exact ⟨none, by rw [h]; rfl, .none⟩
  | some block =>
    obtain ⟨body, ts, hbody, hts, hrespelled⟩ :=
      MadeFrom.erases h hi hp (.of_indexed hi hmodel rfl hnames) (List.forall_mem_nil _)
    rw [Program.body?, hmodel, Option.bind_some] at hbody
    exact ⟨some ts, by rw [hbody, Option.mapM_some, hts]; rfl, .some hrespelled⟩

end Models

theorem ModelMade.erases {id : ModelId} {md : Syntax.Model} {model : Model}
    (h : ModelMade p id md model) (hi : p.Indexed) (hp : p.MethodsNamed)
    (hmodel : p.getModel? id = some model) :
    ∃ m', p.eraseModel model = some m' ∧ Syntax.Model.Respelled md m' := by
  have hnames : model.methods.map (·.name) = md.methods.map (·.name) :=
    map_of_forall₂ (h.methods.imp fun _ _ hx => hx.1)
  have hfields : model.fields.mapM p.eraseField = some md.fields := by
    refine mapM_of_forall₂ (h.fields.imp ?_)
    intro f f' hf
    rw [Program.eraseField, eraseType_of_lowerValueType hi (.refl p) hf.type, hf.name]
    rfl
  obtain ⟨fs, hfs, hmethods⟩ := exists_mapM_of_forall₂ (f := fun x => p.eraseFunction x.function)
    (R := Syntax.Function.Respelled (md.methods.map (·.name))) (h.methods.imp fun f x hx =>
      hx.2.erases hi hp (.of_indexed hi hmodel rfl hnames) (List.forall_mem_nil _))
  obtain ⟨e, he, hequality⟩ := h.equality.erases hi hp hmodel hnames
  obtain ⟨b, hb, hhashing⟩ := h.hashing.erases hi hp hmodel hnames
  refine ⟨⟨md.name, md.fields, fs, e, b⟩, ?_, rfl, rfl, hmethods, hequality, hhashing⟩
  rw [Program.eraseModel, hfields, hfs, he, hb, h.name]
  rfl

end Definitions

/-! ## Modules -/

theorem functions_modelsFrom {n : Nat} {mds : List Syntax.Model}
    {xs : List (List Field × List Function)}
    (h : List.Forall₂ (fun md x => md.methods.length = x.2.length) mds xs) :
    ((modelsFrom n mds xs).flatMap fun m => m.methods.map (·.function)) =
      (List.range' n (xs.flatMap (·.2)).length).map FunctionId.mk := by
  induction h generalizing n with
  | nil => rfl
  | @cons md x mds xs hx _ ih =>
    rw [modelsFrom, List.flatMap_cons, ih, List.flatMap_cons, List.length_append, ← hx, modelOf,
      functions_methodsFrom, ← List.range'_append_1, List.map_append]

/-- Constants are written back one by one, though each was lowered when the later ones were not
there yet. -/
theorem erase_constants {q p : Program} {cs : List Syntax.Constant} {ks : List Constant}
    (hks : ConstantsOf q cs ks) (hi : q.Indexed) (hp : p.MethodsNamed)
    (hg : (q.withConstants ks).Grows p) :
    List.Forall₂ (fun c k => ∃ c', p.eraseConstant k = some c' ∧ Syntax.Constant.Respelled c c') cs
      ks := by
  induction hks with
  | nil => exact .nil
  | @cons q k k' ks ks' hvalid hname hform hvalue htype hfresh hks ih =>
    have hq : q.Grows p := (withConstants_grows _).trans hg
    refine .cons ?_ (ih (withConstants_indexed hi (hname ▸ hfresh)) ?_)
    · have hc : Legible [] ⟨q, [.program]⟩ := ⟨hi, rfl, List.forall_mem_nil _⟩
      obtain ⟨s, hs, hrespelled⟩ := hvalue.erases hc hp hq
      exact ⟨⟨k'.name, s⟩, by rw [Program.eraseConstant, hs]; rfl, hname, hrespelled⟩
    · rw [withConstants_withConstants]
      exact hg

section Traced

variable {m : Syntax.Module} {p : Program} {ts : Tables} (h : Traced m p ts)

include h

theorem Traced.indexed : p.Indexed := by
  rw [← Program.indexed_stripped, h.stripped]
  exact h.declares.indexed

theorem Traced.map_models : p.models.map Model.stripped =
    (modelsFrom ts.functions.length m.models ts.members).toArray :=
  congrArg Program.models h.stripped

theorem Traced.modelNames : p.modelNames = m.models.map (·.name) := by
  have hnames := congrArg (fun ms : Array Model => ms.toList.map (·.name)) h.map_models
  simp only [Array.toList_map, List.map_map] at hnames
  exact hnames.trans (modelNames_modelsFrom h.declares.length_members)

/-- The models of a program are those of the module, one by one. -/
theorem Traced.forall₂_models :
    List.Forall₂ (fun md model => ∃ id, p.getModel? id = some model ∧ ModelMade p id md model)
      m.models p.models.toList := by
  have hlength : m.models.length = p.models.toList.length := by
    have hnames := congrArg List.length h.modelNames
    rw [Program.modelNames, List.length_map, List.length_map] at hnames
    exact hnames.symm
  refine List.forall₂_iff_get.mpr ⟨hlength, ?_⟩
  intro i hi hi'
  obtain ⟨model, hmodel, hmade⟩ := h.models (List.getElem?_eq_getElem hi)
  have hget : p.getModel? ⟨i⟩ = some (p.models.toList.get ⟨i, hi'⟩) := by
    rw [Program.getModel?, ← Array.getElem?_toList, List.getElem?_eq_getElem hi']
    rfl
  cases hmodel.symm.trans hget
  exact ⟨⟨i⟩, hmodel, hmade⟩

theorem Traced.methodsNamed : p.MethodsNamed := by
  intro id model hmodel x hx
  have hlt : id.index < m.models.length := by
    rw [h.forall₂_models.length_eq, Array.length_toList]
    exact (Array.getElem?_eq_some_iff.mp hmodel).1
  obtain ⟨model', hmodel', hmade⟩ := h.models (List.getElem?_eq_getElem hlt)
  cases hmodel.symm.trans hmodel'
  obtain ⟨f, _, hname, ⟨g, hg, hsignature⟩, _⟩ := exists_left_of_forall₂ hmade.methods hx
  exact ⟨g, hg, hsignature.name.trans hname.symm, hsignature.owner⟩

theorem Traced.map_functions :
    p.functions.map Function.stripped = (ts.functions ++ ts.members.flatMap (·.2)).toArray :=
  congrArg Program.functions h.stripped

theorem Traced.size_functions :
    p.functions.size = ts.functions.length + (ts.members.flatMap (·.2)).length := by
  rw [← Array.size_map (f := Function.stripped), h.map_functions, List.size_toArray,
    List.length_append]

/-- The free functions of a program are those of the module, in their order. -/
theorem Traced.freeFunctions_eq :
    p.freeFunctions = (List.range m.functions.length).map FunctionId.mk := by
  have hmap : p.functionMap = .ofNames FunctionId.mk 0 (ts.functions.map (·.name)) :=
    congrArg Program.functionMap h.stripped
  rw [Program.freeFunctions, hmap, NameMap.ids_ofNames, List.length_map,
    h.declares.functions.length_eq, List.range_eq_range']

/-- Every function of a program is written once. -/
theorem Traced.writtenFunctions_eq :
    p.writtenFunctions = (List.range p.functions.size).map FunctionId.mk := by
  have hmethods : (p.models.toList.flatMap fun m => m.methods.map (·.function)) =
      (modelsFrom ts.functions.length m.models ts.members).flatMap fun m =>
        m.methods.map (·.function) := by
    have hlist : p.models.toList.map Model.stripped =
        modelsFrom ts.functions.length m.models ts.members := by
      rw [← Array.toList_map, h.map_models]
    rw [← hlist, List.flatMap_map]
    rfl
  have hlengths : List.Forall₂ (fun md x => md.methods.length = x.2.length) m.models ts.members := by
    rw [← map_snd_numbered m.models]
    refine List.forall₂_map_left_iff.mpr (h.declares.members.imp ?_)
    intro x y hx
    exact hx.methods.length_eq
  rw [Program.writtenFunctions, hmethods, functions_modelsFrom hlengths, h.freeFunctions_eq,
    h.size_functions, ← List.map_append, h.declares.functions.length_eq, List.range_eq_range',
    List.range_eq_range', ← List.range'_append_1, Nat.zero_add]

end Traced

/-- **Lowering keeps what a module says.** A lowered program can be written back, and what is
written is the module that was lowered, up to the forms that have two spellings. The program has no
functions but those that are written, each once. -/
theorem lower_faithful {m : Syntax.Module} {limit : Option Nat} {p : Program}
    (h : lower m limit = .ok p) :
    (∃ m', p.erase = some m' ∧ Syntax.Module.Respelled m m') ∧
      p.writtenFunctions = (List.range p.functions.size).map FunctionId.mk := by
  obtain ⟨_, ts, htraced⟩ := lower_traced h
  have hp := htraced.methodsNamed
  have hi := htraced.indexed
  have hbare := (bareProgram_sound m.name htraced.declares.models).1.indexed
  -- the parts of the module, each in the order of its table
  have hconstants : p.constants.toList = ts.constants := by
    rw [htraced.constants_eq]
  obtain ⟨cs, hcs, hconstants'⟩ := exists_mapM_of_forall₂
    (erase_constants htraced.declares.constants hbare hp (
      htraced.declares.grows.trans htraced.grows))
  have hfunctions : List.Forall₂ (fun f id => ∃ f', p.eraseFunction id = some f' ∧
      Syntax.Function.Respelled [] f f') m.functions p.freeFunctions := by
    rw [htraced.freeFunctions_eq]
    refine List.forall₂_iff_get.mpr ⟨by simp, ?_⟩
    intro i hi hi'
    have hmade := htraced.functions (List.getElem?_eq_getElem hi)
    rw [List.get_eq_getElem, List.get_eq_getElem, List.getElem_map, List.getElem_range]
    exact hmade.erases htraced.indexed hp rfl (List.forall_mem_nil _)
  obtain ⟨fs, hfs, hfunctions'⟩ := exists_mapM_of_forall₂ hfunctions
  obtain ⟨mds, hmds, hmodels'⟩ := exists_mapM_of_forall₂ (f := p.eraseModel)
    (R := Syntax.Model.Respelled) (htraced.forall₂_models.imp fun md model hmodel => by
      obtain ⟨id, hget, hmade⟩ := hmodel
      exact hmade.erases hi hp hget)
  have hname : p.name = m.name := congrArg Program.name htraced.stripped
  refine ⟨⟨⟨m.name, cs, fs, mds⟩, ?_, rfl, hconstants', hfunctions', hmodels'⟩,
    htraced.writtenFunctions_eq⟩
  rw [Program.erase, hconstants, hcs, hfs, hmds, hname]
  rfl

/-- A model whose method uses each form that has two spellings. -/
def bagModule : Syntax.Module where
  name := "Bags"
  constants := []
  functions := [
    { name := "trim", parameters := [⟨"items", .list .int⟩], returnType := .void
      body := [.call (.method (.var "items") "pop") []] }]
  models := [
    { name := "Bag"
      fields := [⟨"items", .list .int⟩, ⟨"seen", .set .int⟩]
      methods := [
        { name := "has", parameters := [⟨"x", .int⟩], returnType := .bool
          body := [.ret (some (.call (.method (.var "seen") "contains") [.var "x"]))] },
        { name := "put", parameters := [⟨"x", .int⟩], returnType := .void
          body := [
            .conditional [(.call (.function "has") [.var "x"],
              [.call (.function "trim") [.var "items"], .ret none])] none,
            .call (.method (.var "seen") "add") [.var "x"],
            .call (.method (.var "items") "push") [.var "x"]] },
        { name := "take", parameters := [], returnType := .int
          body := [.ret (some (.call (.method (.var "items") "pop") []))] }]
      equality := none
      hashing := none }]

/-- The program of `bagModule`. -/
def bagProgram : Program :=
  match lower bagModule none with
  | .ok p => p
  | .error _ => { name := "" }

theorem bagProgram_faithful :
    lower bagModule none = .ok bagProgram ∧
      (∃ m', bagProgram.erase = some m' ∧ Syntax.Module.Respelled bagModule m') ∧
      bagProgram.writtenFunctions = (List.range bagProgram.functions.size).map FunctionId.mk := by
  have h : lower bagModule none = .ok bagProgram := by cbv
  exact ⟨h, lower_faithful h⟩

end Scribe.Lowering
