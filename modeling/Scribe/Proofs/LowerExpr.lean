import Scribe.Proofs.WellScoped

/-!
# Names and steps of lowering

A scope fits a site if all that its names stand for may be used there (`Context.Fits`). Then names
resolve to definitions in scope, and the receivers of calls are what their functions need. The steps
of lowering expressions are told by when they succeed.
-/

namespace Scribe.Core

variable {p : Program} {name : String} {i : Nat}

theorem getParameter?_of_findIdx? {id : FunctionId} {f : Function}
    (hf : p.getFunction? id = some f) (hi : f.parameters.findIdx? (·.name == name) = some i) :
    ∃ q, p.getParameter? id i = some q ∧ q.name = name := by
  obtain ⟨hlt, htest, _⟩ := List.findIdx?_eq_some_iff_getElem.mp hi
  exact ⟨f.parameters[i], Option.bind_eq_some_iff.mpr ⟨f, hf, List.getElem?_eq_getElem hlt⟩, by
    simpa using htest⟩

end Scribe.Core

namespace Scribe.Lowering

open Scribe.Core

/-! ## Scopes that fit a site -/

/-- A name for a local that may be used at a site. -/
def Binding.Fits (p : Program) (site : Site) (b : Binding) : Prop :=
  b.id ∈ site.locals ∧ ∃ l, p.getLocal? b.id = some l

/-- A frame around a site: what it gives a name to may be used there. -/
def Frame.Fits (p : Program) (site : Site) : Frame → Prop
  | .program => True
  | .model id => site.owner? p = some id ∧ ∃ m, p.getModel? id = some m
  | .function id => site.callable = some (.function id)
  | .equality id other => site.callable = some (.equality id) ∧ other.Fits p site
  | .hashing id => site.callable = some (.hashing id)
  | .block bindings => ∀ b ∈ bindings, b.Fits p site
  | .forLoop binding => ∀ b ∈ binding, b.Fits p site
  | .forEach item => item.Fits p site

/-- The names that a frame gives to locals. -/
def Frame.bindings : Frame → List Binding
  | .block bindings => bindings
  | .forLoop binding => binding.toList
  | .forEach item => [item]
  | .equality _ other => [other]
  | .program | .model _ | .function _ | .hashing _ => []

/-- A place of lowering that stands at a site. -/
structure Context.Fits (site : Site) (c : Context) : Prop where
  signatures : c.program.Signatures
  frames : ∀ frame ∈ c.scope, frame.Fits c.program site
  constants : c.program.constants.size ≤ site.constants

/-! ## Names -/

section Names

variable {p : Program} {site : Site} {name : String} {id : ModelId}

/-- A method that a model knows by name belongs to that model. -/
theorem getFunction?_of_method? (hp : p.Signatures) {m : Model} (hm : p.getModel? id = some m)
    {function : FunctionId} (h : m.method? name = some function) :
    ∃ f, p.getFunction? function = some f ∧ f.owner = some id := by
  exact hp.methods hm _ ((hp.indexed.method?_eq_some hm).mp h)

variable {frame : Frame} {d : Definition} {scope : Scope}

theorem Frame.Fits.bindings (h : frame.Fits p site) : ∀ b ∈ frame.bindings, b.Fits p site := by
  cases frame with
  | program | model _ | function _ | hashing _ => exact List.forall_mem_nil _
  | equality id other => exact List.forall_mem_singleton.mpr h.2
  | block bindings => exact h
  | forLoop binding => exact fun b hb => h b (Option.mem_toList.mp hb)
  | forEach item => exact List.forall_mem_singleton.mpr h

/-- A frame gives a name to what it binds, to a parameter of its function or to a field of its
model. -/
theorem Frame.find?_eq_ok_some (h : frame.find? p name = .ok (some d)) :
    (∃ id, d = .binding id ∧ ⟨name, id⟩ ∈ frame.bindings) ∨
    (∃ id f i, frame = .function id ∧ d = .argument id i ∧ p.getFunction? id = some f ∧
      f.parameters.findIdx? (·.name == name) = some i) ∨
    (∃ id m i, frame = .model id ∧ d = .field id i ∧ p.getModel? id = some m ∧
      m.field? name = some i) := by
  have single {b : Binding}
      (h : (.ok (if b.name = name then some (.binding b.id) else none) :
        Checked (Option Definition)) = .ok (some d)) : d = .binding b.id ∧ ⟨name, b.id⟩ = b := by
    by_cases hname : b.name = name
    · rw [if_pos hname] at h
      cases h
      exact ⟨rfl, by rw [← hname]⟩
    · rw [if_neg hname] at h
      cases h
  cases frame with
  | program => cases h
  | hashing _ => cases h
  | model id =>
    simp only [find?, Result.bind_eq_ok, Checked.ofOption_eq_ok, Result.pure_eq_ok,
      Option.map_eq_some_iff] at h
    obtain ⟨m, hm, i, hi, rfl⟩ := h
    exact .inr (.inr ⟨id, m, i, rfl, rfl, hm, hi⟩)
  | function id =>
    simp only [find?, Result.bind_eq_ok, Checked.ofOption_eq_ok, Result.pure_eq_ok,
      Option.map_eq_some_iff] at h
    obtain ⟨f, hf, i, hi, rfl⟩ := h
    exact .inr (.inl ⟨id, f, i, rfl, rfl, hf, hi⟩)
  | equality _ other =>
    obtain ⟨rfl, hb⟩ := single h
    exact .inl ⟨other.id, rfl, List.mem_singleton.mpr hb⟩
  | block bindings =>
    obtain ⟨b, hb, rfl⟩ := Option.map_eq_some_iff.mp (Except.ok.inj h)
    have hname : b.name = name := by simpa using List.find?_some hb
    have hmem := List.mem_of_find?_eq_some hb
    rw [← hname]
    exact .inl ⟨b.id, rfl, hmem⟩
  | forLoop binding =>
    cases binding with
    | none => cases h
    | some b =>
      obtain ⟨rfl, hb⟩ := single h
      exact .inl ⟨b.id, rfl, List.mem_singleton.mpr hb⟩
  | forEach item =>
    obtain ⟨rfl, hb⟩ := single h
    exact .inl ⟨item.id, rfl, List.mem_singleton.mpr hb⟩

theorem Frame.inScope_of_find? (hp : p.Indexed) (hfits : frame.Fits p site)
    (h : frame.find? p name = .ok (some d)) : d.InScope p site := by
  obtain ⟨id, rfl, hb⟩ | ⟨id, f, i, rfl, rfl, hf, hi⟩ | ⟨id, m, i, rfl, rfl, hm, hi⟩ :=
    Frame.find?_eq_ok_some h
  · exact hfits.bindings _ hb
  · obtain ⟨q, hq, _⟩ := getParameter?_of_findIdx? hf hi
    exact ⟨hfits, q, hq⟩
  · obtain ⟨f, hf, _⟩ := hp.getField? hm hi
    exact ⟨hfits.1, f, hf⟩

/-- A name stands for what one of the frames gives to it, or for a constant. -/
theorem Scope.resolve_eq_ok (h : scope.resolve p name = .ok d) :
    (∃ frame ∈ scope, frame.find? p name = .ok (some d)) ∨
      ∃ id, p.constant? name = some id ∧ d = .constant id := by
  induction scope with
  | nil =>
    unfold resolve at h
    split at h
    · next id hid =>
      cases h
      exact .inr ⟨id, hid, rfl⟩
    · cases h
  | cons frame outer ih =>
    simp only [resolve, Result.bind_eq_ok] at h
    obtain ⟨found, hfound, h⟩ := h
    cases found with
    | some d' =>
      cases h
      exact .inl ⟨frame, List.mem_cons_self, hfound⟩
    | none =>
      obtain ⟨frame', hmem, hf⟩ | hconstant := ih h
      · exact .inl ⟨frame', List.mem_cons_of_mem _ hmem, hf⟩
      · exact .inr hconstant

theorem model_mem_of_enclosingModel? (h : scope.enclosingModel? = some id) :
    Frame.model id ∈ scope := by
  obtain ⟨frame, hmem, hframe⟩ := List.exists_of_findSome?_eq_some h
  cases frame with
  | model id' =>
    cases hframe
    exact hmem
  | _ => cases hframe

end Names

variable {site : Site} {c c' : Context} {name : String} {p : Program} {spelling : Syntax.TypeExpr}
  {t : Ty} {f : Function} {function : FunctionId} {receiver : Option Expr}

theorem Context.Fits.resolve (hc : c.Fits site) {d : Definition}
    (h : c.scope.resolve c.program name = .ok d) : d.InScope c.program site := by
  obtain ⟨frame, hmem, hf⟩ | ⟨id, hid, rfl⟩ := Scope.resolve_eq_ok h
  · exact Frame.inScope_of_find? hc.signatures.indexed (hc.frames frame hmem) hf
  · obtain ⟨k, hk, _⟩ := hc.signatures.indexed.constant?_eq_some.mp hid
    have hlt := (Array.getElem?_eq_some_iff.mp hk).1
    exact ⟨Nat.lt_of_lt_of_le hlt hc.constants, k, hk⟩

variable {id : ModelId} {e : Expr} {scope : Scope} {output : Ty} {field : FieldRef}

theorem Context.Fits.enclosingModel? (hc : c.Fits site) (h : c.scope.enclosingModel? = some id) :
    site.owner? c.program = some id ∧ ∃ m, c.program.getModel? id = some m :=
  hc.frames _ (model_mem_of_enclosingModel? h)

theorem Context.Fits.enclosingCallable? (hc : c.Fits site) {callable : Callable}
    (h : c.scope.enclosingCallable? = some callable) : site.callable = some callable := by
  obtain ⟨frame, hmem, hframe⟩ := List.exists_of_findSome?_eq_some h
  have hfits := hc.frames frame hmem
  cases frame with
  | function id =>
    cases hframe
    exact hfits
  | equality model other =>
    cases hframe
    exact hfits.1
  | hashing model =>
    cases hframe
    exact hfits
  | _ => cases hframe

/-! ## Types -/

theorem requireValueType_eq_ok {t t' : Ty} :
    requireValueType t = .ok t' ↔ t ≠ .void ∧ t = t' := by
  unfold requireValueType
  by_cases h : t.isVoid = true
  · rw [if_pos h]
    rw [Ty.isVoid_iff] at h
    exact ⟨by rintro ⟨⟩, fun hne => (hne.1 h).elim⟩
  · rw [if_neg h]
    rw [Ty.isVoid_iff] at h
    exact ⟨fun hok => ⟨h, Except.ok.inj hok⟩, fun hne => congrArg Except.ok hne.2⟩

theorem resolveModel_eq_ok : resolveModel p name = .ok id ↔ p.model? name = some id := by
  unfold resolveModel
  cases p.model? name with
  | none => exact ⟨by rintro ⟨⟩, by rintro ⟨⟩⟩
  | some id' => exact ⟨fun h => congrArg some (Except.ok.inj h), fun h => by cases h; rfl⟩

/-- An annotation spells a type of the program. -/
theorem lowerType_known (hp : p.Indexed) (h : lowerType p spelling = .ok t) : t.Known p := by
  induction spelling generalizing t with
  | bool | int | rune | string | void =>
    cases h
    trivial
  | list item ih | set item ih =>
    simp only [lowerType, Result.bind_eq_ok, requireValueType_eq_ok, Result.pure_eq_ok] at h
    obtain ⟨ti, hi, _, ⟨_, rfl⟩, rfl⟩ := h
    have hknown : ti.Known p := ih hi
    exact hknown
  | map key value ihk ihv =>
    simp only [lowerType, Result.bind_eq_ok, requireValueType_eq_ok, Result.pure_eq_ok] at h
    obtain ⟨tk, hk, _, ⟨_, rfl⟩, tv, hv, _, ⟨_, rfl⟩, rfl⟩ := h
    exact ⟨ihk hk, ihv hv⟩
  | model name =>
    simp only [lowerType, Result.bind_eq_ok, resolveModel_eq_ok, Result.pure_eq_ok] at h
    obtain ⟨id, hid, rfl⟩ := h
    obtain ⟨m, hm, _⟩ := hp.model?_eq_some.mp hid
    exact ⟨m, hm⟩

/-- Only the whole of an annotation can spell `void`. -/
theorem lowerType_valued (h : lowerType p spelling = .ok t) (hvoid : t ≠ .void) : t.Valued := by
  induction spelling generalizing t with
  | bool | int | rune | string =>
    cases h
    rintro ⟨⟩
  | void =>
    cases h
    exact (hvoid rfl).elim
  | list item ih | set item ih =>
    simp only [lowerType, Result.bind_eq_ok, requireValueType_eq_ok, Result.pure_eq_ok] at h
    obtain ⟨ti, hi, _, ⟨hne, rfl⟩, rfl⟩ := h
    have hvalued : ti.Valued := ih hi hne
    exact hvalued
  | map key value ihk ihv =>
    simp only [lowerType, Result.bind_eq_ok, requireValueType_eq_ok, Result.pure_eq_ok] at h
    obtain ⟨tk, hk, _, ⟨hnek, rfl⟩, tv, hv, _, ⟨hnev, rfl⟩, rfl⟩ := h
    exact ⟨ihk hk hnek, ihv hv hnev⟩
  | model name =>
    simp only [lowerType, Result.bind_eq_ok, Result.pure_eq_ok] at h
    obtain ⟨id, _, rfl⟩ := h
    trivial

theorem lowerValueType_eq_ok :
    lowerValueType p spelling = .ok t ↔ lowerType p spelling = .ok t ∧ t ≠ .void := by
  unfold lowerValueType
  simp only [Result.bind_eq_ok, requireValueType_eq_ok]
  constructor
  · rintro ⟨t', ht, hne, rfl⟩
    exact ⟨ht, hne⟩
  · rintro ⟨ht, hne⟩
    exact ⟨t, ht, hne, rfl⟩

/-! ## Steps of lowering -/

theorem typed_eq_ok : typed e c = .ok t c' ↔ typeOf c.program e = .ok t ∧ c = c' :=
  Lower.check_eq_ok

theorem expectType_eq_ok {expected : Ty} {e' : Expr} :
    expectType expected e c = .ok e' c' ↔ typeOf c.program e = .ok expected ∧ e = e' ∧ c = c' := by
  unfold expectType
  simp only [Step.bind_eq_ok, typed_eq_ok, Lower.check_eq_ok, ensureType_eq_ok, Step.pure_eq_ok]
  constructor
  · rintro ⟨found, _, ⟨hfound, rfl⟩, _, _, ⟨rfl, rfl⟩, rfl, rfl⟩
    exact ⟨hfound, rfl, rfl⟩
  · rintro ⟨h, rfl, rfl⟩
    exact ⟨expected, c, ⟨h, rfl⟩, (), c, ⟨rfl, rfl⟩, rfl, rfl⟩

theorem nullAt_eq_ok : nullAt t c = .ok e c' ↔ t ≠ .void ∧ .null t = e ∧ c = c' := by
  unfold nullAt
  by_cases h : t.isVoid = true
  · rw [if_pos h]
    rw [Ty.isVoid_iff] at h
    exact ⟨by rintro ⟨⟩, fun hne => (hne.1 h).elim⟩
  · rw [if_neg h, Step.pure_eq_ok]
    rw [Ty.isVoid_iff] at h
    exact ⟨fun hok => ⟨h, hok⟩, fun hok => hok.2⟩

theorem functionAt_eq_ok {id : FunctionId} :
    functionAt id c = .ok f c' ↔ c.program.getFunction? id = some f ∧ c = c' := by
  unfold functionAt
  rw [Lower.check_eq_ok, Checked.ofOption_eq_ok]

theorem requireArity_eq_ok {expected found : Nat} {u : Unit} :
    requireArity name expected found c = .ok u c' ↔ expected = found ∧ c = c' := by
  unfold requireArity
  by_cases h : expected = found
  · rw [if_pos h, Step.pure_eq_ok]
    exact ⟨fun hok => ⟨h, hok.2⟩, fun hok => ⟨rfl, hok.2⟩⟩
  · rw [if_neg h]
    exact ⟨by rintro ⟨⟩, fun hok => (h hok.1).elim⟩

theorem function?_of_fallback (h : (match p.function? name with
      | some function => return (none, function)
      | none => throw (.nameNotFound name) : Checked (Option Expr × FunctionId)) =
        .ok (receiver, function)) : p.function? name = some function ∧ receiver = none := by
  split at h
  · next function' hf =>
    cases h
    exact ⟨hf, rfl⟩
  · cases h

/-- A plain call goes to a method of the enclosing model, and to a free function exactly if there is
no such method. -/
theorem resolveFunction_iff :
    resolveFunction p scope name = .ok (receiver, function) ↔
      (∃ id m, scope.enclosingModel? = some id ∧ p.getModel? id = some m ∧
        m.method? name = some function ∧ receiver = some (.self id)) ∨
      ((∀ id, scope.enclosingModel? = some id →
        ∃ m, p.getModel? id = some m ∧ m.method? name = none) ∧
        p.function? name = some function ∧ receiver = none) := by
  unfold resolveFunction
  cases hmodel : scope.enclosingModel? with
  | none =>
    constructor
    · intro h
      obtain ⟨hf, hreceiver⟩ := function?_of_fallback h
      exact .inr ⟨by rintro _ ⟨⟩, hf, hreceiver⟩
    · rintro (⟨_, _, ⟨⟩, _⟩ | ⟨_, hf, rfl⟩)
      rw [hf]
      rfl
  | some id =>
    simp only [Result.bind_eq_ok, Checked.ofOption_eq_ok, Result.pure_eq_ok]
    constructor
    · rintro ⟨m, hm, found, hfound, h⟩
      cases hmethod : m.method? name with
      | none =>
        rw [hmethod] at hfound
        cases hfound
        obtain ⟨hf, hreceiver⟩ := function?_of_fallback h
        exact .inr ⟨by rintro _ ⟨⟩; exact ⟨m, hm, hmethod⟩, hf, hreceiver⟩
      | some function' =>
        rw [hmethod] at hfound
        cases hfound
        cases h
        exact .inl ⟨id, m, rfl, hm, hmethod, rfl⟩
    · rintro (⟨_, m, ⟨⟩, hm, hmethod, rfl⟩ | ⟨hnone, hf, rfl⟩)
      · refine ⟨m, hm, some (id, function), ?_, rfl⟩
        rw [hmethod]
        rfl
      · obtain ⟨m, hm, hmethod⟩ := hnone id rfl
        refine ⟨m, hm, none, ?_, ?_⟩
        · rw [hmethod]
          rfl
        · rw [hf]
          rfl

theorem resolveVariable_eq_ok :
    resolveVariable p scope name = .ok e ↔
      ∃ d t, scope.resolve p name = .ok d ∧ p.definitionType? d = some t ∧ .var d t = e := by
  unfold resolveVariable
  simp only [Result.bind_eq_ok, Checked.ofOption_eq_ok, Result.pure_eq_ok]
  constructor
  · rintro ⟨d, hd, t, ht, rfl⟩
    exact ⟨d, t, hd, ht, rfl⟩
  · rintro ⟨d, t, hd, ht, rfl⟩
    exact ⟨d, hd, t, ht, rfl⟩

theorem resolveField_iff {receiver : Ty} :
    resolveField p receiver name = .ok (field, output) ↔
      receiver = .model field.model ∧ ∃ m f, p.getModel? field.model = some m ∧
        m.field? name = some field.index ∧ m.fields[field.index]? = some f ∧ output = f.type := by
  unfold resolveField
  simp only [Result.bind_eq_ok, Checked.ofOption_eq_ok, receiverModel_eq_ok]
  constructor
  · rintro ⟨id, rfl, m, hm, h⟩
    cases hi : m.field? name with
    | none =>
      rw [hi] at h
      cases h
    | some i =>
      rw [hi] at h
      simp only [Result.bind_eq_ok, Checked.ofOption_eq_ok, Result.pure_eq_ok] at h
      obtain ⟨f, hf, h⟩ := h
      cases h
      exact ⟨rfl, m, f, hm, hi, hf, rfl⟩
  · rintro ⟨rfl, m, f, hm, hi, hf, rfl⟩
    refine ⟨field.model, rfl, m, hm, ?_⟩
    rw [hi]
    simp only [Result.bind_eq_ok, Checked.ofOption_eq_ok, Result.pure_eq_ok]
    exact ⟨f, hf, rfl⟩

theorem resolveField_eq_ok {receiver : Ty}
    (h : resolveField p receiver name = .ok (field, output)) :
    receiver = .model field.model ∧
      ∃ f, p.getField? field.model field.index = some f ∧ output = f.type := by
  obtain ⟨rfl, m, f, hm, _, hf, rfl⟩ := resolveField_iff.mp h
  exact ⟨rfl, f, Option.bind_eq_some_iff.mpr ⟨m, hm, hf⟩, rfl⟩

theorem lowerCall_eq_ok {count : Nat} {lowerArguments : List Ty → Lower (List Expr)} {call : Call} :
    lowerCall receiver function count lowerArguments c = .ok call c' ↔
      ∃ f arguments, c.program.getFunction? function = some f ∧ f.parameters.length = count ∧
        lowerArguments (f.parameters.map (·.type)) c = .ok arguments c' ∧
        { receiver, arguments, function, returnType := f.returnType } = call := by
  unfold lowerCall
  simp only [Step.bind_eq_ok, functionAt_eq_ok, requireArity_eq_ok, Step.pure_eq_ok]
  constructor
  · rintro ⟨f, _, ⟨hf, rfl⟩, _, _, ⟨hcount, rfl⟩, arguments, _, harguments, rfl, rfl⟩
    exact ⟨f, arguments, hf, hcount, harguments, rfl⟩
  · rintro ⟨f, arguments, hf, hcount, harguments, rfl⟩
    exact ⟨f, c, ⟨hf, rfl⟩, (), c, ⟨hcount, rfl⟩, arguments, c', harguments, rfl, rfl⟩

/-! ## Receivers -/

/-- A plain call has the receiver that its function needs. -/
theorem Context.Fits.resolveFunction (hc : c.Fits site)
    (h : resolveFunction c.program c.scope name = .ok (receiver, function))
    (hf : c.program.getFunction? function = some f) :
    receiver.map (typeOf c.program) = f.owner.map (fun model => .ok (.model model)) ∧
      ∀ e ∈ receiver, e.All (Expr.Sound c.program site) := by
  obtain ⟨id, m, hid, hm, hmethod, rfl⟩ | ⟨_, hfree, rfl⟩ := resolveFunction_iff.mp h
  · obtain ⟨g, hg, howner⟩ := getFunction?_of_method? hc.signatures hm hmethod
    rw [hf] at hg
    cases hg
    rw [howner]
    refine ⟨rfl, ?_⟩
    intro e he
    cases he
    exact Expr.All.leaf trivial (hc.enclosingModel? hid)
  · obtain ⟨g, hg, howner, _⟩ := hc.signatures.indexed.function?_eq_some.mp hfree
    rw [hf] at hg
    cases hg
    rw [howner]
    exact ⟨rfl, by rintro _ ⟨⟩⟩

/-- A call on an instance has the receiver that its method needs. -/
theorem Context.Fits.resolveMethod (hc : c.Fits site) {receiver : Expr} {receiverType : Ty}
    (hr : typeOf c.program receiver = .ok receiverType)
    (h : resolveMethod c.program receiverType name = .ok function)
    (hf : c.program.getFunction? function = some f) :
    (some receiver).map (typeOf c.program) = f.owner.map fun model => .ok (.model model) := by
  obtain ⟨id, m, rfl, hm, hmethod⟩ := resolveMethod_eq_ok.mp h
  obtain ⟨g, hg, howner⟩ := getFunction?_of_method? hc.signatures hm hmethod
  rw [hf] at hg
  cases hg
  rw [howner, Option.map_some, hr]
  rfl

end Scribe.Lowering
