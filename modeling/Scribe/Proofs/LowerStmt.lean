import Scribe.Proofs.LowerExpr

/-!
# What lowering statements changes

Lowering a statement adds locals to the program and may bind names in the innermost frame; nothing
else of the program or the scope changes (`Lowered`). The locals that are added are those that the
statement binds, in order, and the statement is sound at a site where these may be used as well
(`Lowers`).
-/

namespace Scribe.Core

/-- The program with one more local. -/
def Program.withLocal (p : Program) (l : Local) : Program :=
  { p with locals := p.locals.push l }

end Scribe.Core

namespace Scribe.Lowering

open Scribe.Core

/-! ## New locals -/

section Locals

variable (p : Program) (l : Local)

theorem getLocal?_withLocal_self : (p.withLocal l).getLocal? ⟨p.locals.size⟩ = some l :=
  Array.getElem?_push_size

theorem withLocal_grows : p.Grows (p.withLocal l) := by
  refine ⟨id, fun {_ f} hf => ⟨f, hf, .refl f⟩, fun {_ m} hm => ⟨m, hm, .refl m⟩, ?_⟩
  intro id l' hl'
  exact getElem?_push_of_some hl' l

variable {p l}

/-- There are no names of locals in the maps. -/
theorem withLocal_indexed (hp : p.Indexed) : (p.withLocal l).Indexed :=
  ⟨hp.constants, hp.functions, hp.models, hp.fields, hp.methods⟩

theorem withLocal_signatures (hp : p.Signatures) (hl : l.type.Known p) :
    (p.withLocal l).Signatures := by
  refine .of_grows (withLocal_grows p l) (withLocal_indexed hp.indexed) hp.constants
    hp.parameters hp.returnType hp.owner hp.fields hp.methods ?_
  intro id l' hl'
  obtain hold | ⟨_, rfl⟩ := getElem?_push_cases hl'
  · exact hp.locals (show p.getLocal? id = some l' from hold)
  · exact hl

end Locals

/-- `p'` is `p` with more locals: those with the ids `ids`, in order. -/
structure AddsLocals (p p' : Program) (ids : List LocalId) : Prop where
  same : p' = { p with locals := p'.locals }
  kept : ∀ {id l}, p.getLocal? id = some l → p'.getLocal? id = some l
  size : p'.locals.size = p.locals.size + ids.length
  ids : ids = (List.range' p.locals.size ids.length).map LocalId.mk

namespace AddsLocals

variable {p p' p'' : Program} {ids ids' : List LocalId}

theorem refl (p : Program) : AddsLocals p p [] :=
  ⟨rfl, fun h => h, rfl, rfl⟩

theorem single (p : Program) (l : Local) : AddsLocals p (p.withLocal l) [⟨p.locals.size⟩] :=
  ⟨rfl, fun h => getElem?_push_of_some h l, Array.size_push _, rfl⟩

theorem trans (h1 : AddsLocals p p' ids) (h2 : AddsLocals p' p'' ids') :
    AddsLocals p p'' (ids ++ ids') := by
  refine ⟨?_, fun h => h2.kept (h1.kept h), ?_, ?_⟩
  · rw [h2.same, h1.same]
  · rw [h2.size, h1.size, List.length_append, Nat.add_assoc]
  · rw [List.length_append, ← List.range'_append_1, List.map_append, ← h1.ids, ← h1.size, ← h2.ids]

theorem grows (h : AddsLocals p p' ids) : p.Grows p' := by
  rw [h.same]
  refine ⟨fun h => h, fun {_ f} hf => ⟨f, hf, .refl f⟩, fun {_ m} hm => ⟨m, hm, .refl m⟩, ?_⟩
  intro id l hl
  exact h.kept hl

theorem indexed (h : AddsLocals p p' ids) (hp : p.Indexed) : p'.Indexed := by
  rw [h.same]
  exact ⟨hp.constants, hp.functions, hp.models, hp.fields, hp.methods⟩

end AddsLocals

/-! ## Frames -/

section Grows

variable {p p' : Program} {site site' : Site} (h : p.Grows p') (hsite : site.Le site')

include h hsite

theorem Binding.Fits.grows {b : Binding} (hb : b.Fits p site) : b.Fits p' site' := by
  obtain ⟨hmem, l, hl⟩ := hb
  exact ⟨hsite.locals _ hmem, l, h.locals hl⟩

theorem Frame.Fits.grows {frame : Frame} (hframe : frame.Fits p site) : frame.Fits p' site' := by
  cases frame with
  | program => trivial
  | model id =>
    obtain ⟨howner, m, hm⟩ := hframe
    obtain ⟨m', hm', _⟩ := h.models hm
    exact ⟨hsite.owner? h howner, m', hm'⟩
  | function id | hashing id => exact hsite.callable.trans hframe
  | equality id other => exact ⟨hsite.callable.trans hframe.1, hframe.2.grows h hsite⟩
  | block bindings => exact fun b hb => (hframe b hb).grows h hsite
  | forLoop binding => exact fun b hb => (hframe b hb).grows h hsite
  | forEach item => exact Binding.Fits.grows h hsite hframe

end Grows

theorem Context.Fits.withFrame {site : Site} {c : Context} (hc : c.Fits site) {frame : Frame}
    (hframe : frame.Fits c.program site) :
    ({ c with scope := frame :: c.scope } : Context).Fits site :=
  ⟨hc.signatures, List.forall_mem_cons.mpr ⟨hframe, hc.frames⟩, hc.constants⟩

/-! ## What lowering a statement changes -/

/-- Lowering went from `c` to `c'` and bound `ids`: it added these locals to the program, may have
bound them in the innermost frame, and did nothing else. -/
structure Lowered (site : Site) (c c' : Context) (ids : List LocalId) : Prop where
  adds : AddsLocals c.program c'.program ids
  fits : c'.Fits (site.bind ids)
  tail : c'.scope.tail = c.scope.tail
  inLoop : c'.scope.inLoop = c.scope.inLoop

namespace Lowered

variable {site : Site} {c c1 c2 : Context} {ids ids' : List LocalId}

theorem refl (hc : c.Fits site) : Lowered site c c [] :=
  ⟨.refl _, by rw [Site.bind_nil]; exact hc, rfl, rfl⟩

theorem trans (h1 : Lowered site c c1 ids) (h2 : Lowered (site.bind ids) c1 c2 ids') :
    Lowered site c c2 (ids ++ ids') :=
  ⟨h1.adds.trans h2.adds, by rw [← Site.bind_bind]; exact h2.fits,
    h2.tail.trans h1.tail, h2.inLoop.trans h1.inLoop⟩

/-- A new local leaves the scope as it is. -/
theorem newLocal (hc : c.Fits site) (l : Local) (hl : l.type.Known c.program) :
    Lowered site c { c with program := c.program.withLocal l }
      [⟨c.program.locals.size⟩] := by
  refine ⟨.single _ l, ⟨withLocal_signatures hc.signatures hl, ?_, hc.constants⟩, rfl, rfl⟩
  intro frame hframe
  exact (hc.frames frame hframe).grows (withLocal_grows _ l) (site.le_bind _)

/-- What happens inside a frame is not seen in the scope outside it. -/
theorem withFrame {frame : Frame} (h : Lowered site { c with scope := frame :: c.scope } c1 ids) :
    Lowered site c { c1 with scope := c.scope } ids := by
  have htail : c1.scope.tail = c.scope := h.tail
  refine ⟨h.adds, ⟨h.fits.signatures, fun f hf => ?_, h.fits.constants⟩, rfl, rfl⟩
  rw [← htail] at hf
  exact h.fits.frames f (List.mem_of_mem_tail hf)

end Lowered

/-- The innermost frame with one more binding: a block that does not bind its name yet, or a loop
without a binding. -/
inductive Scope.Extends (b : Binding) : Scope → Scope → Prop where
  | block {bindings : List Binding} {outer : Scope} (hfree : ∀ b' ∈ bindings, b'.name ≠ b.name) :
      Scope.Extends b (.block bindings :: outer) (.block (b :: bindings) :: outer)
  | forLoop {outer : Scope} :
      Scope.Extends b (.forLoop none :: outer) (.forLoop (some b) :: outer)

variable {b : Binding} {scope scope' : Scope}

theorem Scope.extends_of_bind (h : scope.bind b = .ok scope') : Scope.Extends b scope scope' := by
  unfold bind at h
  split at h
  · split at h
    · cases h
    · next hfree =>
      cases h
      exact .block (by simpa using hfree)
  · cases h
    exact .forLoop
  · cases h

/-- A name is bound in the innermost frame, which stays the kind of frame it is. -/
theorem Scope.bind_eq_ok {p : Program} {site : Site} (h : scope.bind b = .ok scope')
    (hb : b.Fits p site) (hscope : ∀ frame ∈ scope, frame.Fits p site) :
    (∀ frame ∈ scope', frame.Fits p site) ∧ scope'.tail = scope.tail ∧
      scope'.inLoop = scope.inLoop := by
  cases Scope.extends_of_bind h with
  | block _ =>
    obtain ⟨hframe, houter⟩ := List.forall_mem_cons.mp hscope
    refine ⟨List.forall_mem_cons.mpr ⟨?_, houter⟩, rfl, rfl⟩
    exact List.forall_mem_cons.mpr ⟨hb, hframe⟩
  | forLoop =>
    obtain ⟨_, houter⟩ := List.forall_mem_cons.mp hscope
    refine ⟨List.forall_mem_cons.mpr ⟨?_, houter⟩, rfl, rfl⟩
    rintro b' ⟨⟩
    exact hb

/-- Lowering went from `c` to `c'`, bound `ids` and gave the statements `ss`: they are sound where
`ids` may be used, and none of them leaves a loop that is not there. -/
structure Lowers (site : Site) (c c' : Context) (ids : List LocalId) (ss : List Stmt) : Prop where
  lowered : Lowered site c c' ids
  sound : ∀ s ∈ ss, s.All (Stmt.Sound c'.program (site.bind ids))
  loose : ∀ s ∈ ss, s.Loose → c.scope.inLoop = true

namespace Lowers

variable {site : Site} {c c1 c2 : Context} {ids ids' : List LocalId} {ss ss' : List Stmt}

theorem nil (hc : c.Fits site) : Lowers site c c [] [] :=
  ⟨.refl hc, List.forall_mem_nil _, List.forall_mem_nil _⟩

theorem append (h1 : Lowers site c c1 ids ss) (h2 : Lowers (site.bind ids) c1 c2 ids' ss') :
    Lowers site c c2 (ids ++ ids') (ss ++ ss') := by
  refine ⟨h1.lowered.trans h2.lowered, ?_, ?_⟩
  · rw [← Site.bind_bind]
    intro s hs
    obtain hs | hs := List.mem_append.mp hs
    · exact (h1.sound s hs).grows h2.lowered.adds.grows (Site.le_bind _ _)
    · exact h2.sound s hs
  · intro s hs hloose
    obtain hs | hs := List.mem_append.mp hs
    · exact h1.loose s hs hloose
    · rw [← h1.lowered.inLoop]
      exact h2.loose s hs hloose

/-- A statement that binds nothing and has no statements inside it. -/
theorem simple (hc : c.Fits site) {s : Stmt} (hsound : s.Sound c.program site)
    (hloose : s.Loose → c.scope.inLoop = true := by rintro ⟨⟩) (hbinders : s.binders = [] := by rfl)
    (hchildren : s.children = [] := by rfl) : Lowers site c c s.binders [s] := by
  rw [hbinders]
  refine ⟨.refl hc, List.forall_mem_singleton.mpr ?_, List.forall_mem_singleton.mpr hloose⟩
  rw [Site.bind_nil]
  exact .intro hsound (by rw [hchildren]; exact List.forall_mem_nil _)

/-- A statement around others. -/
theorem nest (h : Lowers site c c1 ids ss) {s : Stmt} (hbinders : s.binders = ids)
    (hchildren : s.children = ss) (hsound : s.Sound c1.program (site.bind ids))
    (hloose : s.Loose → ∃ t ∈ ss, t.Loose) : Lowers site c c1 s.binders [s] := by
  rw [hbinders]
  refine ⟨h.lowered, List.forall_mem_singleton.mpr ?_, List.forall_mem_singleton.mpr ?_⟩
  · refine .intro hsound ?_
    rw [hchildren]
    exact h.sound
  · intro hs
    obtain ⟨t, ht, htloose⟩ := hloose hs
    exact h.loose t ht htloose

/-- The statements of a block, whose frame is taken off again. -/
theorem block {bindings : List Binding}
    (h : Lowers site { c with scope := .block bindings :: c.scope } c1 ids ss) :
    Lowers site c { c1 with scope := c.scope } ids ss :=
  ⟨h.lowered.withFrame, h.sound, h.loose⟩

end Lowers

/-! ## Steps -/

variable {c c' : Context}

theorem newLocal_eq_ok {name : String} {type : Ty} {origin : LocalOrigin} {id : LocalId} :
    newLocal name type origin c = .ok id c' ↔
      ⟨c.program.locals.size⟩ = id ∧
        { c with program := c.program.withLocal { name, type, origin } } = c' := by
  unfold newLocal
  rw [Lower.build_eq_ok]
  constructor
  · rintro ⟨program, h, rfl⟩
    cases h
    exact ⟨rfl, rfl⟩
  · rintro ⟨rfl, rfl⟩
    exact ⟨_, rfl, rfl⟩

theorem enclosingCallable_eq_ok {scope : Scope} {callable : Callable} :
    enclosingCallable scope = .ok callable ↔ scope.enclosingCallable? = some callable := by
  unfold enclosingCallable
  cases scope.enclosingCallable? with
  | none => exact ⟨by rintro ⟨⟩, by rintro ⟨⟩⟩
  | some x => exact ⟨fun h => congrArg some (Except.ok.inj h), fun h => by cases h; rfl⟩

theorem callableReturnType?_known {p : Program} (hp : p.Signatures) {callable : Callable} {t : Ty}
    (h : p.callableReturnType? callable = some t) : t.Known p := by
  cases callable with
  | function id =>
    obtain ⟨f, hf, rfl⟩ := Option.map_eq_some_iff.mp h
    exact hp.returnType hf
  | equality _ =>
    cases h
    trivial
  | hashing _ =>
    cases h
    trivial

end Scribe.Lowering
