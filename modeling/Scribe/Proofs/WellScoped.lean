import Scribe.Proofs.NameMaps
import Scribe.Proofs.WellTyped

/-!
# Programs whose references lead somewhere

Code stands at a site: in the value of a constant, or in the body of a callable. The site says which
definitions the code may use. A reference is in scope if what it names is there and may be used at
its site (`Definition.InScope`, `Expr.InScope`, `Stmt.InScope`). The name maps of a program hold what
its tables hold (`Program.Indexed`), so a name that is found leads to a definition of that name.
-/

namespace Scribe.Core

open Scribe.Lowering

/-! ## Types -/

/-- A type names models of the program only. -/
def Ty.Known (p : Program) : Ty → Prop
  | .primitive _ => True
  | .list item | .set item => item.Known p
  | .map key value => key.Known p ∧ value.Known p
  | .model id => ∃ m, p.getModel? id = some m

/-- A type of values: no part of it is `void`. -/
def Ty.Valued : Ty → Prop
  | .primitive p => p ≠ .void
  | .list item | .set item => item.Valued
  | .map key value => key.Valued ∧ value.Valued
  | .model _ => True

/-! ## Sites -/

/-- Where code stands, and what it may use there. -/
structure Site where
  /-- The callable whose body it is; a constant has none. -/
  callable : Option Callable
  /-- How many constants there are before it. -/
  constants : Nat
  /-- The locals that are bound around it. -/
  locals : List LocalId

/-- The model that a site belongs to. -/
def Site.owner? (site : Site) (p : Program) : Option ModelId :=
  site.callable.bind p.owner?

/-- The site of the value of a constant: the constants before it. -/
def Site.ofConstant (id : ConstantId) : Site :=
  { callable := none, constants := id.index, locals := [] }

/-- The site of a body: all constants, and the locals that the body binds. -/
def Site.ofBody (p : Program) (callable : Callable) (body : Block) : Site :=
  { callable := some callable
    constants := p.constants.size
    locals := (p.other? callable).toList ++ blockBinders body }

/-- A site where at least as much may be used. -/
structure Site.Le (site site' : Site) : Prop where
  callable : site'.callable = site.callable
  constants : site.constants ≤ site'.constants
  locals : ∀ id ∈ site.locals, id ∈ site'.locals

theorem Site.Le.refl (site : Site) : site.Le site :=
  ⟨rfl, Nat.le_refl _, fun _ => id⟩

/-- A site where more locals may be used. -/
def Site.bind (site : Site) (ids : List LocalId) : Site :=
  { site with locals := site.locals ++ ids }

theorem Site.bind_nil (site : Site) : site.bind [] = site := by
  unfold bind
  rw [List.append_nil]

theorem Site.bind_bind (site : Site) (ids ids' : List LocalId) :
    (site.bind ids).bind ids' = site.bind (ids ++ ids') := by
  unfold bind
  rw [List.append_assoc]

theorem Site.le_bind (site : Site) (ids : List LocalId) : site.Le (site.bind ids) :=
  ⟨rfl, Nat.le_refl _, fun _ h => List.mem_append_left _ h⟩

/-! ## References -/

/-- A definition that is there and may be used at a site. -/
def Definition.InScope (p : Program) (site : Site) : Definition → Prop
  | .constant id => id.index < site.constants ∧ ∃ c, p.getConstant? id = some c
  | .argument function i =>
    site.callable = some (.function function) ∧ ∃ q, p.getParameter? function i = some q
  | .field model i => site.owner? p = some model ∧ ∃ f, p.getField? model i = some f
  | .binding id => id ∈ site.locals ∧ ∃ l, p.getLocal? id = some l

/-- A node that names what is there and may be used at a site. Calls and new instances stand in
bodies only. -/
def Expr.InScope (p : Program) (site : Site) : Expr → Prop
  | .list _ item | .set _ item | .emptyList item | .emptySet item | .pop _ item => item.Known p
  | .map _ key value | .emptyMap key value => key.Known p ∧ value.Known p
  | .lookup _ _ _ output | .null output => output.Known p
  | .call _ _ function returnType =>
    site.callable.isSome ∧ (∃ f, p.getFunction? function = some f) ∧ returnType.Known p
  | .property _ field output =>
    (∃ f, p.getField? field.model field.index = some f) ∧ output.Known p
  | .new model => site.callable.isSome ∧ ∃ m, p.getModel? model = some m
  | .self model => site.owner? p = some model ∧ ∃ m, p.getModel? model = some m
  | .var definition output => definition.InScope p site ∧ output.Known p
  | .bool _ | .int _ | .rune _ | .string _ | .contains _ _ | .length _ _ | .unary _ _ _
  | .binary _ _ _ _ => True

/-- A statement that names what is there. What it binds is a local of its kind, with the type of
the value that the local gets. A return leaves the callable of its site. -/
def Stmt.InScope (p : Program) (site : Site) : Stmt → Prop
  | .declare id value =>
    ∃ l, p.getLocal? id = some l ∧ l.origin = .declared ∧ typeOf p value = .ok l.type
  | .forEach id _ _ itemType _ =>
    itemType.Known p ∧ ∃ l, p.getLocal? id = some l ∧ l.origin = .forEachItem ∧ l.type = itemType
  | .ret _ callable => site.callable = some callable
  | .call _ _ function returnType =>
    (∃ f, p.getFunction? function = some f) ∧ returnType.Known p
  | .assign _ _ | .conditional _ _ | .forLoop _ _ _ _ | .brk | .cont | .add _ _ | .push _ _
  | .pop _ => True

/-! ## Programs -/

/-- The name maps of a program are in step with its tables. -/
structure Program.Indexed (p : Program) : Prop where
  constants : p.constantMap.Indexes fun name id => ∃ c, p.getConstant? id = some c ∧ c.name = name
  functions : p.functionMap.Indexes fun name id =>
    ∃ f, p.getFunction? id = some f ∧ f.owner = none ∧ f.name = name
  models : p.modelMap.Indexes fun name id => ∃ m, p.getModel? id = some m ∧ m.name = name
  fields : ∀ {id m}, p.getModel? id = some m →
    m.fieldMap.Indexes fun name i => ∃ f, m.fields[i]? = some f ∧ f.name = name
  methods : ∀ {id m}, p.getModel? id = some m →
    m.methodMap.Indexes fun name function => ⟨name, function⟩ ∈ m.methods

/-- The tables of a program name what is there: the types of all definitions, the methods of models
and the models of methods. Parameters and fields have types of values. -/
structure Program.Signatures (p : Program) : Prop where
  indexed : p.Indexed
  constants : ∀ {id c}, p.getConstant? id = some c → c.type.Known p
  parameters : ∀ {id f}, p.getFunction? id = some f →
    ∀ q ∈ f.parameters, q.type.Known p ∧ q.type.Valued
  returnType : ∀ {id f}, p.getFunction? id = some f → f.returnType.Known p
  owner : ∀ {id f}, p.getFunction? id = some f →
    ∀ {model}, f.owner = some model → ∃ m, p.getModel? model = some m
  fields : ∀ {id m}, p.getModel? id = some m → ∀ f ∈ m.fields, f.type.Known p ∧ f.type.Valued
  methods : ∀ {id m}, p.getModel? id = some m →
    ∀ x ∈ m.methods, ∃ f, p.getFunction? x.function = some f ∧ f.owner = some id
  locals : ∀ {id l}, p.getLocal? id = some l → l.type.Known p

/-- Every reference of a program leads somewhere, and every local is bound once. -/
structure Program.WellScoped (p : Program) : Prop where
  signatures : p.Signatures
  constants : ∀ {id c}, p.getConstant? id = some c → c.value.All (Expr.InScope p (.ofConstant id))
  bodies : ∀ {callable body}, p.body? callable = some body → ∀ s ∈ body,
    s.All fun s => s.InScope p (.ofBody p callable body) ∧
      ∀ e ∈ s.operands, e.All (Expr.InScope p (.ofBody p callable body))
  control : ∀ {callable body}, p.body? callable = some body → ∀ s ∈ body, ¬s.Loose
  others : ∀ {model id}, p.other? (.equality model) = some id →
    ∃ l, p.getLocal? id = some l ∧ l.origin = .overrideOther ∧ l.type = .model model
  binders : ∀ {id l}, p.getLocal? id = some l → p.binders.count id = 1

variable {p : Program} {e : Expr} {site : Site}

/-! ### What is found has the name -/

section Names

variable {p : Program} (hp : p.Indexed) {name : String} {model : ModelId} {m : Model}

include hp

theorem Program.Indexed.constant?_eq_some {id : ConstantId} :
    p.constant? name = some id ↔ ∃ c, p.getConstant? id = some c ∧ c.name = name :=
  hp.constants.lookup_eq_some

/-- A function that is found by its name belongs to no model. -/
theorem Program.Indexed.function?_eq_some {id : FunctionId} :
    p.function? name = some id ↔ ∃ f, p.getFunction? id = some f ∧ f.owner = none ∧ f.name = name :=
  hp.functions.lookup_eq_some

theorem Program.Indexed.model?_eq_some :
    p.model? name = some model ↔ ∃ m, p.getModel? model = some m ∧ m.name = name :=
  hp.models.lookup_eq_some

theorem Program.Indexed.field?_eq_some (hm : p.getModel? model = some m) {i : Nat} :
    m.field? name = some i ↔ ∃ f, m.fields[i]? = some f ∧ f.name = name :=
  (hp.fields hm).lookup_eq_some

theorem Program.Indexed.method?_eq_some (hm : p.getModel? model = some m) {id : FunctionId} :
    m.method? name = some id ↔ ⟨name, id⟩ ∈ m.methods :=
  (hp.methods hm).lookup_eq_some

theorem Program.Indexed.getField? (hm : p.getModel? model = some m) {i : Nat}
    (hi : m.field? name = some i) : ∃ f, p.getField? model i = some f ∧ f.name = name := by
  obtain ⟨f, hf, hname⟩ := (hp.field?_eq_some hm).mp hi
  exact ⟨f, Option.bind_eq_some_iff.mpr ⟨m, hm, hf⟩, hname⟩

end Names

/-- The type of a definition names models of the program only. -/
theorem Program.Signatures.definitionType?_known (hp : p.Signatures) {d : Definition} {t : Ty}
    (h : p.definitionType? d = some t) : t.Known p := by
  cases d with
  | constant id =>
    obtain ⟨k, hk, rfl⟩ := Option.map_eq_some_iff.mp h
    exact hp.constants hk
  | argument function i =>
    obtain ⟨q, hq, rfl⟩ := Option.map_eq_some_iff.mp h
    obtain ⟨f, hf, hi⟩ := Option.bind_eq_some_iff.mp hq
    exact (hp.parameters hf q (List.mem_of_getElem? hi)).1
  | field model i =>
    obtain ⟨f, hf, rfl⟩ := Option.map_eq_some_iff.mp h
    obtain ⟨m, hm, hi⟩ := Option.bind_eq_some_iff.mp hf
    exact (hp.fields hm f (List.mem_of_getElem? hi)).1
  | binding id =>
    obtain ⟨l, hl, rfl⟩ := Option.map_eq_some_iff.mp h
    exact hp.locals hl

/-! ## Growth -/

section Growth

variable {p p' : Program} (h : p.Grows p')

include h

theorem Ty.Known.grows {t : Ty} (ht : t.Known p) : t.Known p' := by
  induction t with
  | primitive _ => trivial
  | list item ih => exact ih ht
  | set item ih => exact ih ht
  | map key value ihk ihv => exact ⟨ihk ht.1, ihv ht.2⟩
  | model id =>
    obtain ⟨m, hm⟩ := ht
    obtain ⟨m', hm', _⟩ := h.models hm
    exact ⟨m', hm'⟩

/-- The tables of a program that grew can be checked against what there was before. -/
theorem Program.Signatures.of_grows (indexed : p'.Indexed)
    (constants : ∀ {id c}, p'.getConstant? id = some c → c.type.Known p)
    (parameters : ∀ {id f}, p'.getFunction? id = some f →
      ∀ q ∈ f.parameters, q.type.Known p ∧ q.type.Valued)
    (returnType : ∀ {id f}, p'.getFunction? id = some f → f.returnType.Known p)
    (owner : ∀ {id f}, p'.getFunction? id = some f →
      ∀ {model}, f.owner = some model → ∃ m, p.getModel? model = some m)
    (fields : ∀ {id m}, p'.getModel? id = some m → ∀ f ∈ m.fields, f.type.Known p ∧ f.type.Valued)
    (methods : ∀ {id m}, p'.getModel? id = some m →
      ∀ x ∈ m.methods, ∃ f, p.getFunction? x.function = some f ∧ f.owner = some id)
    (locals : ∀ {id l}, p'.getLocal? id = some l → l.type.Known p) :
    p'.Signatures := by
  refine ⟨indexed, fun hc => (constants hc).grows h, ?_, fun hf => (returnType hf).grows h, ?_, ?_,
    ?_, fun hl => (locals hl).grows h⟩
  · intro id f hf q hq
    obtain ⟨hknown, hvalued⟩ := parameters hf q hq
    exact ⟨hknown.grows h, hvalued⟩
  · intro id f hf model hmodel
    obtain ⟨m, hm⟩ := owner hf hmodel
    obtain ⟨m', hm', _⟩ := h.models hm
    exact ⟨m', hm'⟩
  · intro id m hm f hf
    obtain ⟨hknown, hvalued⟩ := fields hm f hf
    exact ⟨hknown.grows h, hvalued⟩
  · intro id m hm x hx
    obtain ⟨f, hf, howner⟩ := methods hm x hx
    obtain ⟨f', hf', hsame⟩ := h.functions hf
    exact ⟨f', hf', hsame.owner.trans howner⟩

variable {site site' : Site} (hsite : site.Le site')

include hsite

theorem Site.Le.owner? {model : ModelId} (ho : site.owner? p = some model) :
    site'.owner? p' = some model := by
  obtain ⟨c, hc, hm⟩ := Option.bind_eq_some_iff.mp ho
  exact Option.bind_eq_some_iff.mpr ⟨c, hsite.callable.trans hc, h.owner? hm⟩

theorem Definition.InScope.grows {d : Definition} (hd : d.InScope p site) :
    d.InScope p' site' := by
  cases d with
  | constant id =>
    obtain ⟨hlt, c, hc⟩ := hd
    exact ⟨Nat.lt_of_lt_of_le hlt hsite.constants, c, h.constants hc⟩
  | argument function i =>
    obtain ⟨hc, q, hq⟩ := hd
    exact ⟨hsite.callable.trans hc, q, h.getParameter? hq⟩
  | field model i =>
    obtain ⟨ho, f, hf⟩ := hd
    exact ⟨hsite.owner? h ho, f, h.getField? hf⟩
  | binding id =>
    obtain ⟨hmem, l, hl⟩ := hd
    exact ⟨hsite.locals id hmem, l, h.locals hl⟩

theorem Expr.InScope.grows {e : Expr} (he : e.InScope p site) : e.InScope p' site' := by
  cases e with
  | list | set | emptyList | emptySet | pop | lookup | null => exact Ty.Known.grows h he
  | map | emptyMap => exact ⟨Ty.Known.grows h he.1, Ty.Known.grows h he.2⟩
  | call receiver arguments function returnType =>
    obtain ⟨hc, ⟨f, hf⟩, ht⟩ := he
    obtain ⟨f', hf', _⟩ := h.functions hf
    exact ⟨by rw [hsite.callable]; exact hc, ⟨f', hf'⟩, ht.grows h⟩
  | property receiver field output =>
    obtain ⟨⟨f, hf⟩, ht⟩ := he
    exact ⟨⟨f, h.getField? hf⟩, ht.grows h⟩
  | new model =>
    obtain ⟨hc, m, hm⟩ := he
    obtain ⟨m', hm', _⟩ := h.models hm
    exact ⟨by rw [hsite.callable]; exact hc, m', hm'⟩
  | self model =>
    obtain ⟨ho, m, hm⟩ := he
    obtain ⟨m', hm', _⟩ := h.models hm
    exact ⟨hsite.owner? h ho, m', hm'⟩
  | var definition output => exact ⟨he.1.grows h hsite, he.2.grows h⟩
  | bool | int | rune | string | contains | length | unary | binary => trivial

theorem Stmt.InScope.grows {s : Stmt} (hs : s.InScope p site) : s.InScope p' site' := by
  cases s with
  | declare id value =>
    obtain ⟨l, hl, ho, ht⟩ := hs
    exact ⟨l, h.locals hl, ho, typeOf_grows h _ ht⟩
  | forEach id iterable kind itemType body =>
    obtain ⟨ht, l, hl, ho, hlt⟩ := hs
    exact ⟨ht.grows h, l, h.locals hl, ho, hlt⟩
  | ret value callable => exact hsite.callable.trans hs
  | call receiver arguments function returnType =>
    obtain ⟨⟨f, hf⟩, ht⟩ := hs
    obtain ⟨f', hf', _⟩ := h.functions hf
    exact ⟨⟨f', hf'⟩, ht.grows h⟩
  | assign | conditional | forLoop | brk | cont | add | push | pop => trivial

end Growth

/-! ## Both at once -/

/-- A node that says the truth and is in scope. -/
structure Expr.Sound (p : Program) (site : Site) (e : Expr) : Prop where
  truthful : e.Truthful p
  inScope : e.InScope p site

/-- A statement that agrees with the rules and is in scope, with all its expressions. -/
structure Stmt.Sound (p : Program) (site : Site) (s : Stmt) : Prop where
  agrees : s.Agrees p
  inScope : s.InScope p site
  operands : ∀ e ∈ s.operands, e.All (Expr.Sound p site)

section Growth

variable {p p' : Program} {site site' : Site} (h : p.Grows p') (hsite : site.Le site')

include h hsite

theorem Expr.All.grows {e : Expr} (he : e.All (Expr.Sound p site)) :
    e.All (Expr.Sound p' site') :=
  he.imp fun _ hs => ⟨hs.truthful.grows h, hs.inScope.grows h hsite⟩

theorem Stmt.All.grows {s : Stmt} (hs : s.All (Stmt.Sound p site)) :
    s.All (Stmt.Sound p' site') :=
  hs.imp fun _ hs => ⟨hs.agrees.grows h, hs.inScope.grows h hsite,
    fun e he => (hs.operands e he).grows h hsite⟩

end Growth

/-- The type of a node in scope names models of the program only. -/
theorem Expr.InScope.stated_known (he : e.InScope p site) : e.stated.Known p := by
  cases e with
  | list | set | emptyList | emptySet | pop | lookup | null => exact he
  | map | emptyMap => exact he
  | call => exact he.2.2
  | property => exact he.2
  | new => exact he.2
  | self => exact he.2
  | var => exact he.2
  | bool | int | rune | string | contains | length | unary | binary => trivial

theorem Expr.All.of_agrees (ha : e.Agrees p) (hs : e.InScope p site)
    (hbelow : ∀ child ∈ e.children, child.All (Expr.Sound p site)) : e.All (Expr.Sound p site) :=
  .intro ⟨ha.truthful, hs⟩ hbelow

theorem Expr.All.leaf (ha : e.Agrees p) (hs : e.InScope p site)
    (hleaf : e.children = [] := by rfl) : e.All (Expr.Sound p site) := by
  refine of_agrees ha hs ?_
  rw [hleaf]
  exact List.forall_mem_nil _

theorem Expr.All.known (he : e.All (Expr.Sound p site)) {t : Ty} (ht : typeOf p e = .ok t) :
    t.Known p := by
  have hstated : e.stated = t := Except.ok.inj (he.root.truthful.typed.symm.trans ht)
  rw [← hstated]
  exact he.root.inScope.stated_known

end Scribe.Core
