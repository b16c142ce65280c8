import Scribe.Proofs.Declared

/-!
# Bodies

Work is run in the order of the queue. Each piece of work makes the bodies of the callables that it
claims, or leaves them to work at the end of the queue, and changes nothing else. So at any time a
body is complete or claimed by work that still waits (`Pending`), and when the queue is empty every
body is complete.
-/

namespace Scribe.Core

open Scribe.Lowering

/-! ## Complete bodies -/

/-- The site of a body before it binds anything. -/
def Site.entry (p : Program) (callable : Callable) : Site :=
  { callable := some callable
    constants := p.constants.size
    locals := (p.other? callable).toList }

/-- A body that has been lowered: it is sound, no `break` or `continue` leaves it, and it ends in a
return if it has to give a value. -/
structure Program.Complete (p : Program) (callable : Callable) (body : Block) : Prop where
  sound : ∀ s ∈ body, s.All (Stmt.Sound p (.ofBody p callable body))
  control : ∀ s ∈ body, ¬s.Loose
  returns : ∃ t, p.callableReturnType? callable = some t ∧
    (t = .void ∨ body.getLast?.any Stmt.isReturn = true)

section Growth

variable {p p' : Program} (h : p.Grows p') (hconstants : p'.constants = p.constants)

include h hconstants

theorem Site.entry_le (callable : Callable) : (Site.entry p callable).Le (.entry p' callable) := by
  refine ⟨rfl, ?_, ?_⟩
  · exact Nat.le_of_eq (congrArg Array.size hconstants).symm
  · intro id hid
    exact Option.mem_toList.mpr (h.other? (Option.mem_toList.mp hid))

theorem Program.Complete.grows {callable : Callable} {body : Block}
    (hb : p.Complete callable body) : p'.Complete callable body := by
  have hentry := Site.entry_le h hconstants callable
  have hle : (Site.ofBody p callable body).Le (.ofBody p' callable body) := by
    refine ⟨rfl, hentry.constants, ?_⟩
    intro id hid
    obtain hid | hid := List.mem_append.mp hid
    · exact List.mem_append_left _ (hentry.locals id hid)
    · exact List.mem_append_right _ hid
  obtain ⟨t, ht, hreturn⟩ := hb.returns
  exact ⟨fun s hs => (hb.sound s hs).grows h hle, hb.control,
    t, h.callableReturnType? ht, hreturn⟩

end Growth

/-! ## Programs that change in some bodies -/

/-- The two programs differ in locals and in callables of `C` at most. -/
structure Program.Updates (C : Callable → Prop) (p p' : Program) : Prop where
  grows : p.Grows p'
  signatures : p.Signatures → p'.Signatures
  constants : p'.constants = p.constants
  owner : ∀ callable, p'.owner? callable = p.owner? callable
  body : ∀ callable, ¬C callable → p'.body? callable = p.body? callable
  other : ∀ callable, ¬C callable → p'.other? callable = p.other? callable
  methods : ∀ {id m}, p.getModel? id = some m →
    ∃ m', p'.getModel? id = some m' ∧ m'.methods = m.methods

namespace Program.Updates

variable {C C' : Callable → Prop} {p p' p'' : Program}

theorem refl (p : Program) : Updates C p p :=
  ⟨.refl p, id, rfl, fun _ => rfl, fun _ _ => rfl, fun _ _ => rfl, fun {_ m} hm => ⟨m, hm, rfl⟩⟩

theorem trans (h1 : Updates C p p') (h2 : Updates C p' p'') : Updates C p p'' := by
  refine ⟨h1.grows.trans h2.grows, fun h => h2.signatures (h1.signatures h),
    h2.constants.trans h1.constants, fun c => (h2.owner c).trans (h1.owner c),
    fun c hc => (h2.body c hc).trans (h1.body c hc),
    fun c hc => (h2.other c hc).trans (h1.other c hc), ?_⟩
  intro id m hm
  obtain ⟨m', hm', hmethods'⟩ := h1.methods hm
  obtain ⟨m'', hm'', hmethods''⟩ := h2.methods hm'
  exact ⟨m'', hm'', hmethods''.trans hmethods'⟩

theorem mono (h : Updates C p p') (hC : ∀ c, C c → C' c) : Updates C' p p' :=
  ⟨h.grows, h.signatures, h.constants, h.owner, fun c hc => h.body c fun hc' => hc (hC c hc'),
    fun c hc => h.other c fun hc' => hc (hC c hc'), h.methods⟩

end Program.Updates

/-! ## Storing a body -/

/-- A list with another element binds what it bound, and what the new element binds on top of the
old one. -/
theorem flatMap_set_perm {α β : Type} {g : α → List β} {xs : List α} {i : Nat} {a b : α}
    {ys : List β} (h : xs[i]? = some a) (hg : (g b).Perm (g a ++ ys)) :
    ((xs.set i b).flatMap g).Perm (xs.flatMap g ++ ys) := by
  induction xs generalizing i with
  | nil => cases h
  | cons x xs ih =>
    cases i with
    | zero =>
      cases h
      rw [List.set_cons_zero, List.flatMap_cons, List.flatMap_cons, List.append_assoc]
      refine (hg.append_right _).trans ?_
      rw [List.append_assoc]
      exact List.perm_append_comm.append_left _
    | succ i =>
      rw [List.set_cons_succ, List.flatMap_cons, List.flatMap_cons, List.append_assoc]
      exact (ih h).append_left _

/-- The program with the body of a callable replaced. -/
structure Stored (p p' : Program) (callable : Callable) (body : Block) : Prop where
  updates : p.Updates (· = callable) p'
  stored : p'.body? callable = some body
  other : p'.other? callable = p.other? callable
  locals : p'.locals = p.locals
  binders : p.body? callable = some [] → p'.binders.Perm (p.binders ++ blockBinders body)

/-- The program with another function behind an id. -/
def Program.withBody (p : Program) (id : FunctionId) (f : Function) (body : Block) : Program :=
  { p with functions := p.functions.setIfInBounds id.index { f with body } }

section Stored

variable {p : Program}

section Function

variable {id : FunctionId} {f : Function} (hf : p.getFunction? id = some f) (body : Block)

include hf

theorem getFunction?_withBody (id' : FunctionId) : (p.withBody id f body).getFunction? id' =
    if id' = id then some { f with body } else p.getFunction? id' := by
  refine (getElem?_set_of_some hf _ id'.index).trans ?_
  by_cases h : id' = id
  · rw [h, if_pos rfl, if_pos rfl]
  · have hindex : ¬id'.index = id.index := fun heq => h (by cases id; cases id'; cases heq; rfl)
    rw [if_neg hindex, if_neg h]
    rfl

theorem withBody_grows : p.Grows (p.withBody id f body) := by
  refine ⟨fun h => h, ?_, fun {_ m} hm => ⟨m, hm, .refl m⟩, fun h => h⟩
  intro id' f' hf'
  rw [getFunction?_withBody hf]
  by_cases hid : id' = id
  · subst hid
    cases hf.symm.trans hf'
    exact ⟨_, if_pos rfl, rfl, rfl, rfl, rfl⟩
  · exact ⟨f', by rw [if_neg hid]; exact hf', .refl f'⟩

theorem getFunction?_withBody_cases {id' : FunctionId} {f' : Function}
    (h : (p.withBody id f body).getFunction? id' = some f') :
    ∃ g, p.getFunction? id' = some g ∧ g.SameSignature f' := by
  rw [getFunction?_withBody hf] at h
  by_cases hid : id' = id
  · rw [if_pos hid] at h
    cases h
    exact ⟨f, hid ▸ hf, rfl, rfl, rfl, rfl⟩
  · rw [if_neg hid] at h
    exact ⟨f', h, .refl f'⟩

theorem withBody_indexed (hp : p.Indexed) : (p.withBody id f body).Indexed := by
  refine ⟨hp.constants, hp.functions.congr fun name id' => ?_, hp.models, hp.fields, hp.methods⟩
  constructor
  · rintro ⟨g, hg, howner, rfl⟩
    obtain ⟨g', hg', hsame⟩ := (withBody_grows hf body).functions hg
    exact ⟨g', hg', hsame.owner.trans howner, hsame.name⟩
  · rintro ⟨g', hg', howner, rfl⟩
    obtain ⟨g, hg, hsame⟩ := getFunction?_withBody_cases hf body hg'
    exact ⟨g, hg, hsame.owner.symm.trans howner, hsame.name.symm⟩

theorem withBody_signatures (hp : p.Signatures) : (p.withBody id f body).Signatures := by
  refine .of_grows (withBody_grows hf body) (withBody_indexed hf body hp.indexed) hp.constants ?_ ?_
    ?_ hp.fields hp.methods hp.locals
  · intro id' f' hf'
    obtain ⟨g, hg, hsame⟩ := getFunction?_withBody_cases hf body hf'
    rw [hsame.parameters]
    exact hp.parameters hg
  · intro id' f' hf'
    obtain ⟨g, hg, hsame⟩ := getFunction?_withBody_cases hf body hf'
    rw [hsame.returnType]
    exact hp.returnType hg
  · intro id' f' hf'
    obtain ⟨g, hg, hsame⟩ := getFunction?_withBody_cases hf body hf'
    rw [hsame.owner]
    exact hp.owner hg

theorem withBody_updates : p.Updates (· = .function id) (p.withBody id f body) := by
  refine ⟨withBody_grows hf body, withBody_signatures hf body, rfl, ?_, ?_, ?_,
    fun {_ m} hm => ⟨m, hm, rfl⟩⟩
  · intro callable
    cases callable with
    | function id' =>
      rw [Program.owner?, Program.owner?, getFunction?_withBody hf]
      by_cases hid : id' = id
      · rw [if_pos hid, hid, hf]
        rfl
      · rw [if_neg hid]
    | equality _ => rfl
    | hashing _ => rfl
  · intro callable hne
    cases callable with
    | function id' =>
      have hid : ¬id' = id := fun heq => hne (congrArg Callable.function heq)
      rw [Program.body?, Program.body?, getFunction?_withBody hf, if_neg hid]
    | equality _ => rfl
    | hashing _ => rfl
  · intro callable _
    cases callable <;> rfl

/-- A function that bound nothing binds what its new body binds. -/
theorem withBody_binders (hempty : f.body = []) :
    (p.withBody id f body).binders.Perm (p.binders ++ blockBinders body) := by
  have hlist : (p.withBody id f body).functions.toList =
      p.functions.toList.set id.index { f with body } := Array.toList_setIfInBounds
  have hold : p.functions.toList[id.index]? = some f := by
    rw [Array.getElem?_toList]
    exact hf
  have hnew : (blockBinders body).Perm (blockBinders f.body ++ blockBinders body) := by
    rw [hempty]
    exact .refl _
  unfold Program.binders
  rw [hlist]
  refine ((flatMap_set_perm hold hnew).append_right _).trans ?_
  -- the binders of models come after those of functions
  rw [List.append_assoc, List.append_assoc]
  exact List.perm_append_comm.append_left _

theorem stored_function : Stored p (p.withBody id f body) (.function id) body := by
  refine ⟨withBody_updates hf body, ?_, rfl, rfl, ?_⟩
  · rw [Program.body?, getFunction?_withBody hf, if_pos rfl]
    rfl
  · intro hempty
    rw [Program.body?, hf] at hempty
    exact withBody_binders hf body (Option.some.inj hempty)

end Function

variable {id : ModelId} {m m' : Model} (hm : p.getModel? id = some m)

include hm

/-- A model changes in its equality or its hash only. -/
theorem withModel_updates (hgrows : m.Grows m')
    (hsame : m' = { m with equality := m'.equality, hashing := m'.hashing }) {C : Callable → Prop}
    (hequality : ¬C (.equality id) → m'.equality = m.equality)
    (hhashing : ¬C (.hashing id) → m'.hashing = m.hashing) :
    p.Updates C (p.withModel id m') := by
  have hread {α : Type} (g : Model → Option α) (id' : ModelId) (hg : id' = id → g m' = g m) :
      ((p.withModel id m').getModel? id').bind g = (p.getModel? id').bind g := by
    rw [getModel?_withModel hm]
    by_cases hid : id' = id
    · rw [if_pos hid, hid, hm, Option.bind_some, Option.bind_some, hg hid]
    · rw [if_neg hid]
  refine ⟨withModel_grows hm hgrows, ?_, rfl, ?_, ?_, ?_, ?_⟩
  · exact fun hp => withModel_signatures hp hm hgrows hsame
  · intro callable
    cases callable <;> rfl
  · intro callable hC
    cases callable with
    | function _ => rfl
    | equality id' =>
      rw [Program.body?, Program.body?, hread _ id' fun hid => hequality (hid ▸ hC)]
    | hashing id' => exact hread _ id' fun hid => hhashing (hid ▸ hC)
  · intro callable hC
    cases callable with
    | function _ => rfl
    | hashing _ => rfl
    | equality id' =>
      rw [Program.other?, Program.other?, hread _ id' fun hid => hequality (hid ▸ hC)]
  · intro id' m1 hm1
    rw [getModel?_withModel hm]
    by_cases hid : id' = id
    · subst hid
      cases hm.symm.trans hm1
      exact ⟨m', if_pos rfl, by rw [hsame]⟩
    · exact ⟨m1, by rw [if_neg hid]; exact hm1, rfl⟩

theorem withModel_binders {ys : List LocalId}
    (h : (Program.modelBinders m').Perm (Program.modelBinders m ++ ys)) :
    (p.withModel id m').binders.Perm (p.binders ++ ys) := by
  have hlist : (p.withModel id m').models.toList = p.models.toList.set id.index m' :=
    Array.toList_setIfInBounds
  have hold : p.models.toList[id.index]? = some m := by
    rw [Array.getElem?_toList]
    exact hm
  unfold Program.binders
  rw [hlist, List.append_assoc]
  exact (flatMap_set_perm hold h).append_left _

theorem stored_equality {e : Equality} (he : m.equality = some e) (body : Block) :
    Stored p (p.withModel id { m with equality := some { e with body } }) (.equality id) body := by
  have hgrows : m.Grows { m with equality := some { e with body } } :=
    ⟨rfl, List.prefix_refl _, List.prefix_refl _,
      fun {e'} he' => ⟨_, rfl, by rw [he] at he'; cases he'; rfl⟩⟩
  refine ⟨withModel_updates hm hgrows rfl (fun hne => (hne rfl).elim) (fun _ => rfl), ?_, ?_,
    rfl, ?_⟩
  · show (((p.withModel id _).getModel? id).bind (·.equality)).map (·.body) = some body
    rw [getModel?_withModel_self hm]
    rfl
  · show (((p.withModel id _).getModel? id).bind (·.equality)).map (·.other) =
      ((p.getModel? id).bind (·.equality)).map (·.other)
    rw [getModel?_withModel_self hm, hm, Option.bind_some, Option.bind_some, he]
    rfl
  · intro hempty
    have hbody : e.body = [] := by
      have hmap : ((p.getModel? id).bind (·.equality)).map (·.body) = some [] := hempty
      rw [hm, Option.bind_some, he] at hmap
      exact Option.some.inj hmap
    refine withModel_binders hm ?_
    unfold Program.modelBinders
    rw [he]
    show ((e.other :: blockBinders body) ++ m.hashing.elim [] blockBinders).Perm
      ((e.other :: blockBinders e.body) ++ m.hashing.elim [] blockBinders ++ blockBinders body)
    rw [hbody]
    exact List.perm_append_comm.cons _

theorem stored_hashing {b : Block} (hb : m.hashing = some b) (body : Block) :
    Stored p (p.withModel id { m with hashing := some body }) (.hashing id) body := by
  have hgrows : m.Grows { m with hashing := some body } :=
    ⟨rfl, List.prefix_refl _, List.prefix_refl _, fun {e} he => ⟨e, he, rfl⟩⟩
  refine ⟨withModel_updates hm hgrows rfl (fun _ => rfl) (fun hne => (hne rfl).elim), ?_, rfl,
    rfl, ?_⟩
  · show ((p.withModel id _).getModel? id).bind (·.hashing) = some body
    rw [getModel?_withModel_self hm]
    rfl
  · intro hempty
    have hbody : b = [] := by
      have hbind : (p.getModel? id).bind (·.hashing) = some [] := hempty
      rw [hm, Option.bind_some, hb] at hbind
      exact Option.some.inj hbind
    refine withModel_binders hm ?_
    unfold Program.modelBinders
    rw [hb, hbody, List.append_assoc]
    exact .refl _

end Stored

end Scribe.Core

namespace Scribe.Lowering

open Scribe.Core

variable {c c' : Context}

namespace AddsLocals

variable {p p' : Program} {ids : List LocalId} (h : AddsLocals p p' ids)

include h

/-- New locals change no callable. -/
theorem body? (callable : Callable) : p'.body? callable = p.body? callable := by
  rw [h.same]
  cases callable <;> rfl

theorem updates (hsignatures : p.Signatures → p'.Signatures) (C : Callable → Prop) :
    p.Updates C p' := by
  refine ⟨h.grows, hsignatures, ?_, ?_, fun callable _ => h.body? callable, ?_, ?_⟩
  · rw [h.same]
  · intro callable
    rw [h.same]
    cases callable <;> rfl
  · intro callable _
    rw [h.same]
    cases callable <;> rfl
  · intro id m hm
    rw [h.same]
    exact ⟨m, hm, rfl⟩

end AddsLocals

/-! ## Running a body -/

theorem lowerBody_complete {callable : Callable} {block : Syntax.Block} {body : Block}
    (hc : c.Fits (.entry c.program callable)) (hloop : c.scope.inLoop = false)
    (h : lowerBody callable block c = .ok body c') :
    AddsLocals c.program c'.program (blockBinders body) ∧ c'.program.Signatures ∧
      c'.program.Complete callable body := by
  unfold lowerBody at h
  simp only [Step.bind_eq_ok, Lower.check_eq_ok, Checked.ofOption_eq_ok, checkTerminal_eq_ok,
    Step.pure_eq_ok] at h
  obtain ⟨body, c', hblock, _, _, ⟨_, rfl⟩, t, _, ⟨ht, rfl⟩, _, _, ⟨hterminal, rfl⟩, rfl, rfl⟩ := h
  have hlowers := lowerBlock_sound rfl hc hblock
  have hsignatures := hlowers.lowered.fits.signatures
  have hupdates := hlowers.lowered.adds.updates (fun _ => hsignatures) fun _ => False
  have hsite : Site.ofBody c'.program callable body =
      (Site.entry c.program callable).bind (blockBinders body) := by
    unfold Site.ofBody
    rw [hupdates.constants, hupdates.other callable id]
    rfl
  refine ⟨hlowers.lowered.adds, hsignatures, ⟨?_, ?_, t, ht, hterminal⟩⟩
  · rw [hsite]
    exact hlowers.sound
  · intro s hs hloose
    have hin := hlowers.loose s hs hloose
    rw [hloop] at hin
    cases hin

theorem setBody_eq_ok {p p' : Program} {id : FunctionId} {f : Function}
    (hf : p.getFunction? id = some f) {body : Block} {u : Unit} :
    Build.setBody id body p = .ok u p' ↔ p.withBody id f body = p' := by
  have hfunctions : p.functions.modify id.index ({ · with body }) =
      p.functions.setIfInBounds id.index { f with body } := by
    refine Array.ext_getElem? fun j => ?_
    rw [Array.getElem?_modify, getElem?_set_of_some hf]
    by_cases hj : id.index = j
    · subst hj
      rw [if_pos rfl, if_pos rfl]
      rw [Program.getFunction?] at hf
      rw [hf]
      rfl
    · rw [if_neg hj, if_neg (Ne.symm hj)]
  refine Step.modify_eq_ok.trans ?_
  rw [hfunctions]
  rfl

theorem modelAt_eq_ok {id : ModelId} {m : Model} :
    modelAt id c = .ok m c' ↔ c.program.getModel? id = some m ∧ c = c' := by
  unfold modelAt
  rw [Lower.check_eq_ok, Checked.ofOption_eq_ok]

end Scribe.Lowering
