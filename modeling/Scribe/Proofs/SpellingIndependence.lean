import Scribe.Proofs.Layout
import Scribe.Proofs.QueueLimit
import Scribe.Proofs.Signatures
import Scribe.Proofs.Spellings

/-!
# Modules that differ in spelling only

`RespellsModule p m m'` says that the blocks of `m'` are those of `m` with any of the forms that have
two spellings in any of them, where `p` is what `m` becomes. Both modules then become the same program
with the same ids, or neither becomes `p` (`lower_respelled`).

The queues of both modules hold work for the same callables in the same order (`SameWork`). Each piece
takes the program to the same next program, so the whole queue does (`Drains.respelled`).
-/

namespace Scribe.Core

/-- The names of the methods of the model that a callable belongs to. -/
def Program.methodNames (p : Program) (callable : Callable) : List String :=
  ((p.owner? callable).bind p.getModel?).elim [] fun m => m.methods.map (·.name)

end Scribe.Core

namespace Scribe.Lowering

open Scribe.Core

/-- `m'` is `m` with some forms in another spelling, where `m` becomes `p`. No constant has such a
form, so spellings differ in blocks only. -/
structure RespellsModule (p : Program) (m m' : Syntax.Module) : Prop where
  signatures : m.SameSignatures m'
  blocks : ∀ {callable body block block'},
    p.body? callable = some body → blockOf? m callable = some block →
    blockOf? m' callable = some block' →
    RespellsBlock p (p.methodNames callable) body block block'

variable {p : Program} {m : Syntax.Module} {scope : Scope} {callable : Callable}
  {f : Syntax.Function}

theorem RespellsModule.symm {m' : Syntax.Module} (h : RespellsModule p m m') :
    RespellsModule p m' m :=
  ⟨h.signatures.symm, fun hbody hblock hblock' => (h.blocks hbody hblock' hblock).symm⟩

/-! ## Scopes and owners -/

theorem Scope.Methods.of_owner (hp : p.Indexed) {id : ModelId} {model : Model}
    (howner : p.owner? callable = some id) (hmodel : p.getModel? id = some model)
    (hscope : scope.enclosingModel? = some id) : scope.Methods p (p.methodNames callable) := by
  refine Scope.Methods.of_indexed hp hmodel hscope ?_
  rw [Program.methodNames, howner, Option.bind_some, hmodel]
  rfl

theorem Scope.Methods.of_free (howner : p.owner? callable = none)
    (hscope : scope.enclosingModel? = none) : scope.Methods p (p.methodNames callable) := by
  unfold Scope.Methods
  rw [hscope, Program.methodNames, howner]
  rfl

theorem FunctionMade.owner? {outer : Scope} {owner : Option ModelId} {id : FunctionId}
    (h : FunctionMade p outer owner f id) : p.owner? (.function id) = owner := by
  obtain ⟨g, hg, hsignature⟩ := h.signature
  rw [Program.owner?, hg, Option.bind_some, hsignature.owner]

/-! ## Blocks of methods -/

/-- Names tell the methods of a model apart. -/
theorem eq_of_definitions {i k : Nat} {md : Syntax.Model} {g : Syntax.Function}
    (hk : (definitions m)[k]? = some (some ⟨i⟩, g)) (hmd : m.models[i]? = some md)
    (hnodup : (md.methods.map (·.name)).Nodup) (hf : f ∈ md.methods) (hname : g.name = f.name) :
    g = f := by
  rcases mem_definitions.mp (List.mem_of_getElem? hk) with ⟨⟨⟩, _⟩ | ⟨j, md', hmd', heq, hg⟩
  cases heq
  cases hmd.symm.trans hmd'
  exact List.inj_on_of_nodup_map hnodup hg hf hname

section Traced

variable {m m' : Syntax.Module} {p : Program} {ts : Tables} (h : Traced m p ts) {i : Nat}
  {md md' : Syntax.Model} (hmd : m.models[i]? = some md) {f : Syntax.Function} (hf : f ∈ md.methods)
  {id : FunctionId} (hmade : FunctionMade p [.model ⟨i⟩, .program] (some ⟨i⟩) f id)

include h hmd hf hmade

/-- A method is made from the definition at the place that its id says. -/
theorem Traced.definition_of_method : (definitions m)[id.index]? = some (some ⟨i⟩, f) := by
  obtain ⟨g, hg, hsignature⟩ := hmade.signature
  obtain ⟨⟨owner, f0⟩, hid⟩ := (h.exists_function id).mp ⟨g, hg⟩
  have hmade0 := h.functionMade hid
  obtain rfl : owner = some ⟨i⟩ := hmade0.owner?.symm.trans hmade.owner?
  obtain ⟨g0, hg0, hsignature0⟩ := hmade0.signature
  cases hg.symm.trans hg0
  obtain ⟨_, _, hmodel⟩ := h.models hmd
  rw [hid, eq_of_definitions hid hmd (List.nodup_append.mp hmodel.distinct).2.1 hf
    (hsignature0.name.symm.trans hsignature.name)]

theorem Traced.blockOf?_method : blockOf? m (.function id) = some f.body := by
  rw [blockOf?, h.definition_of_method hmd hf hmade]
  rfl

/-- The other module has its block for the method at the same place. -/
theorem Traced.blockOf?_method_same (hm : m.SameSignatures m') (hmd' : m'.models[i]? = some md')
    {f' : Syntax.Function} (hf' : f' ∈ md'.methods) (hsame : f.SameSignature f') :
    blockOf? m' (.function id) = some f'.body := by
  obtain ⟨⟨owner, g⟩, hg, howner, hsame'⟩ := rel_eq_some_left
    (rel_getElem?_of_forall₂ (forall₂_definitions_same hm) id.index)
    (h.definition_of_method hmd hf hmade)
  obtain rfl : owner = some ⟨i⟩ := howner
  obtain ⟨_, _, hmodel⟩ := h.models hmd
  have hnodup : (md'.methods.map (·.name)).Nodup := by
    rw [Syntax.Function.SameSignature.map_name (hm.model hmd hmd').methods]
    exact (List.nodup_append.mp hmodel.distinct).2.1
  rw [blockOf?, hg, eq_of_definitions hg hmd' hnodup hf' (hsame'.name.trans hsame.name.symm)]
  rfl

end Traced

/-! ## The same work on other blocks -/

/-- Work for the same callables, on the blocks that the two modules have for them. -/
inductive SameWork (m m' : Syntax.Module) (p : Program) : Deferred → Deferred → Prop where
  | body {scope : Scope} {b b' : Body} (hcallable : b'.callable = b.callable)
      (hscope : scope.Methods p (p.methodNames b.callable))
      (hblock : blockOf? m b.callable = some b.block)
      (hblock' : blockOf? m' b.callable = some b'.block) :
      SameWork m m' p ⟨scope, .body b⟩ ⟨scope, .body b'⟩
  | members {id : ModelId} {md md' : Syntax.Model} (hmd : m.models[id.index]? = some md)
      (hmd' : m'.models[id.index]? = some md') :
      SameWork m m' p (.ofModel id md) (.ofModel id md')

section Steps

variable {m m' : Syntax.Module} {p q : Program} {scope : Scope} {c1 : Context}

/-- A body that is spelled otherwise takes the program to the same next program. -/
theorem runBody_respelled {b b' : Body} {rest : List Deferred} (hm : RespellsModule p m m')
    (hrun : runBody b ⟨q, scope⟩ = .ok () c1) (hrest : Drains c1.program rest p)
    (hp : Pending q (⟨scope, .body b⟩ :: rest)) (hcallable : b'.callable = b.callable)
    (hscope : scope.Methods p (p.methodNames b.callable))
    (hblock : blockOf? m b.callable = some b.block)
    (hblock' : blockOf? m' b.callable = some b'.block) : runBody b' ⟨q, scope⟩ = .ok () c1 := by
  obtain ⟨body, p1, hlowers, hstore, hscope1⟩ := runBody_eq_ok.mp hrun
  obtain ⟨hstored, _⟩ := Program.store_eq_some hstore
  obtain ⟨_, hupdates, hstripped⟩ := hrest.done (hp.runBody hrun)
  -- spellings are judged in `p`, where the body is what was stored here
  have hbody := (runBody_kept hrun hrest hp).trans hstored.stored
  have hmethods := hscope.of_stripped ((runBody_stripped hrun).symm.trans hstripped.symm)
  obtain ⟨c2, helab, rfl⟩ := hlowers.block
  have hrespelled := helab.respell (hm.blocks hbody hblock hblock') hmethods
    (hstored.updates.grows.trans hupdates.grows)
  refine runBody_eq_ok.mpr ⟨body, c2.program, ?_, ?_, hscope1⟩
  · rw [hcallable]
    exact ⟨⟨c2, hrespelled, rfl⟩, hlowers.named, hlowers.returns⟩
  · rw [hcallable]
    exact hstore

end Steps

section Opened

variable {e e' : Option Syntax.Equality} (h : e'.map (·.other) = e.map (·.other))

include h

theorem withOther_same (p : Program) (id : ModelId) : withOther p id e' = withOther p id e := by
  cases e with
  | none => rw [Option.map_eq_none_iff.mp h]
  | some e =>
    obtain ⟨e', rfl, hother⟩ := Option.map_eq_some_iff.mp h
    rw [withOther, withOther, hother]

theorem openEquality_same (next : LocalId) (model : Model) :
    openEquality next e' model = openEquality next e model := by
  have hopen := congrArg (Option.map fun _ : String => (⟨next, []⟩ : Equality)) h
  rw [Option.map_map, Option.map_map] at hopen
  exact congrArg (fun x : Option Equality => { model with equality := x.or model.equality }) hopen

end Opened

theorem openHashing_same {b b' : Option Syntax.Block} (h : b'.isSome = b.isSome) (model : Model) :
    openHashing b' model = openHashing b model := by
  cases b with
  | none =>
    cases b' with
    | none => rfl
    | some _ => cases h
  | some _ =>
    cases b' with
    | none => cases h
    | some _ => rfl

theorem forall₂_zip {α β γ : Type} {R : α → β → Prop} {S : α → γ → Prop} {xs : List α} {ys : List β}
    {zs : List γ} (hy : List.Forall₂ R xs ys) (hz : List.Forall₂ S xs zs) :
    List.Forall₂ (fun u v => v.1 = u.1 ∧ R u.2 u.1 ∧ S u.2 v.2) (ys.zip xs) (ys.zip zs) := by
  induction hy generalizing zs with
  | nil =>
    cases hz
    exact .nil
  | cons hR _ ih =>
    cases hz with
    | cons hS hz => exact .cons ⟨rfl, hR, hS⟩ (ih hz)

section Members

variable {m m' : Syntax.Module} {p q : Program} {ts : Tables} (h : Traced m p ts)
  (hm : m.SameSignatures m') {id : ModelId} {md md' : Syntax.Model}
  (hmd : m.models[id.index]? = some md) (hmd' : m'.models[id.index]? = some md')

include h hm hmd hmd'

theorem sameWork_methods (hstripped : q.stripped = p.stripped) {model : Model}
    (hmodel : q.getModel? id = some model) :
    List.Forall₂ (SameWork m m' p) (deferBodies [.model id, .program] (methodBodies model md))
      (deferBodies [.model id, .program] (methodBodies model md')) := by
  obtain ⟨model', hmodel', hmade⟩ := h.models hmd
  obtain ⟨_, hget, hstripped'⟩ := getModel?_of_stripped hstripped hmodel
  cases hmodel'.symm.trans hget
  have hmethods : model.methods = model'.methods := (Model.same_of_stripped hstripped').2.2.1.symm
  have hids : List.Forall₂ (fun f i => f ∈ md.methods ∧
      FunctionMade p [.model id, .program] (some id) f i) md.methods
      (model.methods.map (·.function)) := by
    rw [hmethods, List.forall₂_map_right_iff, List.forall₂_and_left]
    exact ⟨fun f hf => hf, hmade.methods.imp fun _ _ hx => hx.2⟩
  have hsame := (hm.model hmd hmd').methods
  have hothers : List.Forall₂ (fun f f' => f' ∈ md'.methods ∧ f.SameSignature f') md.methods
      md'.methods := by
    refine List.forall₂_iff_zip.mpr ⟨hsame.length_eq, ?_⟩
    exact fun hz => ⟨(List.of_mem_zip hz).2, (List.forall₂_iff_zip.mp hsame).2 hz⟩
  -- a method's id stands at the same place in the program as its block in either module
  rw [deferBodies, deferBodies, methodBodies, methodBodies, List.map_map, List.map_map,
    List.forall₂_map_left_iff, List.forall₂_map_right_iff]
  refine (forall₂_zip hids hothers).imp ?_
  rintro ⟨i, f⟩ ⟨_, f'⟩ ⟨rfl, ⟨hf, hfunction⟩, hf', hsignature⟩
  refine .body rfl (.of_owner h.indexed hfunction.owner? hmodel' rfl) ?_ ?_
  · exact h.blockOf?_method hmd hf hfunction
  · exact h.blockOf?_method_same hmd hf hfunction hm hmd' hf' hsignature

theorem sameWork_overrides (next : LocalId) :
    List.Forall₂ (SameWork m m' p) (deferBodies [.model id, .program] (overrideBodies id next md))
      (deferBodies [.model id, .program] (overrideBodies id next md')) := by
  obtain ⟨model, hmodel, _⟩ := h.models hmd
  have hequality := (hm.model hmd hmd').equality
  have hhashing := (hm.model hmd hmd').hashing
  rw [deferBodies, deferBodies, overrideBodies, overrideBodies, List.map_append, List.map_append]
  refine List.rel_append ?_ ?_
  · cases he : md.equality with
    | none =>
      rw [he] at hequality
      rw [Option.map_eq_none_iff.mp hequality]
      exact .nil
    | some e =>
      obtain ⟨other, body⟩ := e
      rw [he] at hequality
      obtain ⟨⟨other', body'⟩, he', hother⟩ := Option.map_eq_some_iff.mp hequality
      obtain rfl : other' = other := hother
      have hscope : Scope.Methods p [.equality id ⟨other', next⟩, .model id, .program]
          (p.methodNames (.equality id)) := .of_owner h.indexed rfl hmodel rfl
      rw [he']
      refine .cons (.body rfl hscope ?_ ?_) .nil
      · show (m.models[id.index]?.bind (·.equality)).map (·.body) = some body
        rw [hmd, Option.bind_some, he, Option.map_some]
      · show (m'.models[id.index]?.bind (·.equality)).map (·.body) = some body'
        rw [hmd', Option.bind_some, he', Option.map_some]
  · cases hb : md.hashing with
    | none =>
      rw [hb, Option.isSome_none, Option.isSome_eq_false_iff, Option.isNone_iff_eq_none] at hhashing
      rw [hhashing]
      exact .nil
    | some block =>
      rw [hb, Option.isSome_some] at hhashing
      obtain ⟨block', hb'⟩ := Option.isSome_iff_exists.mp hhashing
      have hscope : Scope.Methods p [.hashing id, .model id, .program]
          (p.methodNames (.hashing id)) := .of_owner h.indexed rfl hmodel rfl
      rw [hb']
      refine .cons (.body rfl hscope ?_ ?_) .nil
      · show m.models[id.index]?.bind (·.hashing) = some block
        rw [hmd, Option.bind_some, hb]
      · show m'.models[id.index]?.bind (·.hashing) = some block'
        rw [hmd', Option.bind_some, hb']

/-- Opening a model changes the program in the same way and leaves work for the same callables. -/
theorem memberBodies_respelled (hstripped : q.stripped = p.stripped) {bodies : List FramedBody}
    {c1 : Context} (hrun : memberBodies id md ⟨q, [.model id, .program]⟩ = .ok bodies c1) :
    ∃ bodies', memberBodies id md' ⟨q, [.model id, .program]⟩ = .ok bodies' c1 ∧
      List.Forall₂ (SameWork m m' p) (deferBodies [.model id, .program] bodies)
        (deferBodies [.model id, .program] bodies') := by
  obtain ⟨model, hmodel⟩ := memberBodies_model hrun
  obtain ⟨hvalid, rfl, rfl⟩ := (memberBodies_eq_ok hmodel).mp hrun
  have hsame := hm.model hmd hmd'
  refine ⟨_, (memberBodies_eq_ok hmodel).mpr ⟨?_, rfl, ?_⟩, ?_⟩
  · intro e' he'
    have hother := hsame.equality
    rw [he'] at hother
    obtain ⟨e, he, hname⟩ := Option.map_eq_some_iff.mp hother.symm
    have hname : e.other = e'.other := hname
    rw [← hname]
    exact hvalid e he
  · rw [withOther_same hsame.equality, openEquality_same hsame.equality,
      openHashing_same hsame.hashing]
  · rw [deferBodies, deferBodies, List.map_append, List.map_append]
    exact List.rel_append (sameWork_methods h hm hmd hmd' hstripped hmodel)
      (sameWork_overrides h hm hmd hmd' _)

end Members

/-! ## The whole queue -/

section Lower

variable {m m' : Syntax.Module} {p : Program}

variable {ts : Tables}

/-- The same work in another spelling takes a program to the same last program. -/
theorem Drains.respelled {q : Program} {ds ds' : List Deferred} (h : Drains q ds p)
    (hp : Pending q ds) (htraced : Traced m p ts) (hm : RespellsModule p m m')
    (hall : List.Forall₂ (SameWork m m' p) ds ds') : Drains q ds' p := by
  induction h generalizing ds' with
  | nil =>
    cases hall
    exact .nil
  | @body q p scope b rest c1 hrun hrest ih =>
    cases hall with
    | cons hd hall =>
      cases hd with
      | body hcallable hscope hblock hblock' =>
        refine .body ?_ (ih (hp.runBody hrun) htraced hm hall)
        exact runBody_respelled hm hrun hrest hp hcallable hscope hblock hblock'
  | @members q p scope id md rest bodies c1 hrun hrest ih =>
    cases hall with
    | cons hd hall =>
      cases hd with
      | members hmd hmd' =>
        obtain ⟨_, _, hstripped⟩ := (Drains.members hrun hrest).done hp
        obtain ⟨bodies', hrun', hbodies⟩ :=
          memberBodies_respelled htraced hm.signatures hmd hmd' hstripped.symm hrun
        exact .members hrun' (ih (hp.memberBodies hrun) htraced hm (List.rel_append hall hbodies))

theorem forall₂_functionWork {R : Deferred → Deferred → Prop} {fs fs' : List Syntax.Function}
    {n : Nat} (hlength : fs.length = fs'.length)
    (h : ∀ {i f f'}, fs[i]? = some f → fs'[i]? = some f' →
      R (.ofFunction ⟨n + i⟩ f.body) (.ofFunction ⟨n + i⟩ f'.body)) :
    List.Forall₂ R (functionWork n fs) (functionWork n fs') := by
  induction fs generalizing n fs' with
  | nil =>
    obtain rfl := List.eq_nil_of_length_eq_zero hlength.symm
    exact .nil
  | cons f fs ih =>
    cases fs' with
    | nil => cases hlength
    | cons f' fs' =>
      refine .cons (h (i := 0) rfl rfl) (ih (Nat.succ.inj hlength) ?_)
      intro i g g' hg hg'
      have hnext := h (i := i + 1) hg hg'
      rw [show n + (i + 1) = n + 1 + i by omega] at hnext
      exact hnext

/-- Modules that differ in blocks only leave work for the same callables. -/
theorem sameWork_declaredWork (h : Traced m p ts) (hm : m.SameSignatures m') :
    List.Forall₂ (SameWork m m' p) (declaredWork m) (declaredWork m') := by
  refine List.rel_append (forall₂_functionWork hm.functions.length_eq ?_) ?_
  · intro i f f' hf hf'
    rw [Nat.zero_add]
    have hblock {m : Syntax.Module} {f : Syntax.Function} (hf : m.functions[i]? = some f) :
        blockOf? m (.function ⟨i⟩) = some f.body := by
      obtain ⟨hlt, _⟩ := List.getElem?_eq_some_iff.mp hf
      rw [blockOf?, definitions, List.getElem?_append_left (by rwa [List.length_map]),
        List.getElem?_map, hf]
      rfl
    exact .body rfl (.of_free (h.functions hf).owner? rfl) (hblock hf) (hblock hf')
  · rw [List.forall₂_map_left_iff, List.forall₂_map_right_iff]
    have hall := forall₂_numbered_same hm.models
    refine List.forall₂_iff_zip.mpr ⟨hall.length_eq, ?_⟩
    rintro ⟨id, md⟩ ⟨id', md'⟩ hz
    obtain ⟨hmem, hmem'⟩ := List.of_mem_zip hz
    obtain ⟨rfl, _⟩ := (List.forall₂_iff_zip.mp hall).2 hz
    exact .members (mem_numbered.mp hmem) (mem_numbered.mp hmem')

theorem pieces_same (hm : m.SameSignatures m') : pieces m' = pieces m := by
  have hmethods := map_of_forall₂ (f := (·.methods.length))
    (hm.models.imp fun _ _ hmd => hmd.methods.length_eq.symm)
  have hcount {f : Syntax.Model → Bool}
      (hf : List.Forall₂ (fun md md' => f md' = f md) m.models m'.models) :
      m'.models.countP f = m.models.countP f := by
    have hmap := congrArg (List.countP id) (map_of_forall₂ hf)
    rw [List.countP_map, List.countP_map] at hmap
    exact hmap
  have hequality := hcount (f := (·.equality.isSome)) (hm.models.imp fun _ _ hmd => by
    have hisSome := congrArg Option.isSome hmd.equality
    rwa [Option.isSome_map, Option.isSome_map] at hisSome)
  have hhashing := hcount (f := (·.hashing.isSome)) (hm.models.imp fun _ _ hmd => hmd.hashing)
  rw [pieces, pieces, hm.functions.length_eq, hm.models.length_eq, hmethods, hequality, hhashing]

theorem lower_of_respelled (hm : RespellsModule p m m') (h : lower m none = .ok p) :
    lower m' none = .ok p := by
  obtain ⟨hname, ts, hdeclares, hdrains⟩ := lower_drains h
  obtain ⟨_, _, htraced⟩ := lower_traced h
  have hdrains' := hdrains.respelled hdeclares.pending htraced hm
    (sameWork_declaredWork htraced hm.signatures)
  refine lower_eq_ok.mpr ⟨?_, ts, hdeclares.same hm.signatures, ?_⟩
  · rw [hm.signatures.name]
    exact hname
  · rw [declaredProgram_same hm.signatures]
    exact hdrains'

/-- **Lowering does not tell spellings apart.** -/
theorem lower_respelled (hm : RespellsModule p m m') (limit : Option Nat) :
    lower m limit = .ok p ↔ lower m' limit = .ok p := by
  cases limit with
  | none => exact ⟨lower_of_respelled hm, lower_of_respelled hm.symm⟩
  | some k =>
    rw [lower_some_eq_ok, lower_some_eq_ok, pieces_same hm.signatures]
    exact and_congr_left fun _ => ⟨lower_of_respelled hm, lower_of_respelled hm.symm⟩

end Lower

/-- `bagModule` with forms of their own for all operations on containers, and with `self`. -/
def plainBagModule : Syntax.Module where
  name := "Bags"
  constants := []
  functions := [
    { name := "trim", parameters := [⟨"items", .list .int⟩], returnType := .void
      body := [.pop (.var "items")] }]
  models := [
    { name := "Bag"
      fields := [⟨"items", .list .int⟩, ⟨"seen", .set .int⟩]
      methods := [
        { name := "has", parameters := [⟨"x", .int⟩], returnType := .bool
          body := [.ret (some (.contains (.var "seen") (.var "x")))] },
        { name := "put", parameters := [⟨"x", .int⟩], returnType := .void
          body := [
            .conditional [(.call (.method .self "has") [.var "x"],
              [.call (.function "trim") [.var "items"], .ret none])] none,
            .add (.var "seen") (.var "x"),
            .push (.var "items") (.var "x")] },
        { name := "take", parameters := [], returnType := .int
          body := [.ret (some (.pop (.var "items")))] }]
      equality := none
      hashing := none }]

theorem bagModule_same : bagModule.SameSignatures plainBagModule := by
  refine ⟨rfl, rfl, .cons ⟨rfl, rfl, rfl⟩ .nil, .cons ⟨rfl, rfl, ?_, rfl, rfl⟩ .nil⟩
  exact .cons ⟨rfl, rfl, rfl⟩ (.cons ⟨rfl, rfl, rfl⟩ (.cons ⟨rfl, rfl, rfl⟩ .nil))

theorem bagModule_respells : RespellsModule bagProgram bagModule plainBagModule := by
  refine ⟨bagModule_same, ?_⟩
  intro callable body block block' hbody hblock hblock'
  have hitems : typeOf bagProgram (.var (.field ⟨0⟩ 0) (.list .int)) = .ok (.list .int) := by cbv
  have hseen : typeOf bagProgram (.var (.field ⟨0⟩ 1) (.set .int)) = .ok (.set .int) := by cbv
  have hcall {α : Type} {a b : α} : b ∈ [a, b] := List.mem_cons_of_mem _ List.mem_cons_self
  obtain ⟨_ | _ | _ | _ | i⟩ | ⟨_ | i⟩ | ⟨_ | i⟩ := callable
  · have hargument : typeOf bagProgram (.var (.argument ⟨0⟩ 0) (.list .int)) = .ok (.list .int) := by
      cbv
    have htrim : bagProgram.body? (.function ⟨0⟩) =
        some [.pop (.var (.argument ⟨0⟩ 0) (.list .int))] := by cbv
    cases hbody.symm.trans htrim
    cases hblock
    cases hblock'
    exact .cons (.simple (.pop rfl hargument hcall List.mem_cons_self (.refl _ _))) .nil
  · have hhas : bagProgram.body? (.function ⟨1⟩) = some [.ret (some (.contains
        (.var (.field ⟨0⟩ 1) (.set .int)) (.var (.argument ⟨1⟩ 0) .int))) (.function ⟨1⟩)] := by cbv
    cases hbody.symm.trans hhas
    cases hblock
    cases hblock'
    exact .cons (.simple (.ret (.contains rfl hseen hcall List.mem_cons_self (.refl _ _)
      (.refl _ _)))) .nil
  · have hput : bagProgram.body? (.function ⟨2⟩) = some [
        .conditional [(.call (some (.self ⟨0⟩)) [.var (.argument ⟨2⟩ 0) .int] ⟨1⟩ .bool,
          [.call none [.var (.field ⟨0⟩ 0) (.list .int)] ⟨0⟩ .void, .ret none (.function ⟨2⟩)])] none,
        .add (.var (.field ⟨0⟩ 1) (.set .int)) (.var (.argument ⟨2⟩ 0) .int),
        .push (.var (.field ⟨0⟩ 0) (.list .int)) (.var (.argument ⟨2⟩ 0) .int)] := by cbv
    have hname : "has" ∈ bagProgram.methodNames (.function ⟨2⟩) := by
      have hnames : bagProgram.methodNames (.function ⟨2⟩) = ["has", "put", "take"] := by cbv
      rw [hnames]
      exact List.mem_cons_self
    cases hbody.symm.trans hput
    cases hblock
    cases hblock'
    refine .cons (.conditional (.cons ?_ ?_ .nil) .none) (.cons (.simple ?_)
      (.cons (.simple ?_) .nil))
    · exact .callOwn hname List.mem_cons_self hcall (.cons (.refl _ _) .nil)
    · exact .cons (.refl _ _) (.cons (.refl _ _) .nil)
    · exact .add rfl hseen hcall List.mem_cons_self (.refl _ _) (.refl _ _)
    · exact .push rfl hitems hcall List.mem_cons_self (.refl _ _) (.refl _ _)
  · have htake : bagProgram.body? (.function ⟨3⟩) = some [.ret (some (.pop
        (.var (.field ⟨0⟩ 0) (.list .int)) .int)) (.function ⟨3⟩)] := by cbv
    cases hbody.symm.trans htake
    cases hblock
    cases hblock'
    exact .cons (.simple (.ret (.pop rfl hitems hcall List.mem_cons_self (.refl _ _)))) .nil
  all_goals cases hblock

theorem bagProgram_respelled :
    RespellsModule bagProgram bagModule plainBagModule ∧
      lower bagModule none = .ok bagProgram ∧ lower plainBagModule none = .ok bagProgram := by
  have h : lower bagModule none = .ok bagProgram := by cbv
  exact ⟨bagModule_respells, h, (lower_respelled bagModule_respells none).mp h⟩

end Scribe.Lowering
