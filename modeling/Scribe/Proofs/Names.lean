import Scribe.Proofs.Layout

/-!
# Names of a lowered program

Every name of a lowered program was checked on the way, so it stands on one line (`lower_named`).
Constants, models, fields, functions and parameters are checked where they are declared, locals
where they are bound.
-/

namespace Scribe.Text

/-- A text on one line. -/
abbrev Flat (s : String) : Prop :=
  '\n' ∉ s.toList

@[simp] theorem flat_iff {s : String} : Flat s ↔ '\n' ∉ s.toList :=
  Iff.rfl

end Scribe.Text

namespace Scribe.Core

open Scribe.Text (Flat)

/-- Every name of a program stands on one line. -/
structure Program.Named (p : Program) : Prop where
  name : Flat p.name
  constants : ∀ c ∈ p.constants, Flat c.name
  functions : ∀ f ∈ p.functions, Flat f.name ∧ ∀ q ∈ f.parameters, Flat q.name
  models : ∀ m ∈ p.models, Flat m.name ∧ ∀ f ∈ m.fields, Flat f.name
  locals : ∀ l ∈ p.locals, Flat l.name

theorem Program.Named.flat_definition {p : Program} (hp : p.Named) {d : Definition} {name : String}
    (h : p.definitionName? d = some name) : Flat name := by
  cases d with
  | constant id =>
    obtain ⟨c, hc, rfl⟩ := Option.map_eq_some_iff.mp h
    exact hp.constants c (Array.mem_of_getElem? hc)
  | argument function index =>
    obtain ⟨q, hq, rfl⟩ := Option.map_eq_some_iff.mp h
    obtain ⟨f, hf, hat⟩ := Option.bind_eq_some_iff.mp hq
    exact (hp.functions f (Array.mem_of_getElem? hf)).2 q (List.mem_of_getElem? hat)
  | field model index =>
    obtain ⟨f, hf, rfl⟩ := Option.map_eq_some_iff.mp h
    obtain ⟨m, hm, hat⟩ := Option.bind_eq_some_iff.mp hf
    exact (hp.models m (Array.mem_of_getElem? hm)).2 f (List.mem_of_getElem? hat)
  | binding id =>
    obtain ⟨l, hl, rfl⟩ := Option.map_eq_some_iff.mp h
    exact hp.locals l (Array.mem_of_getElem? hl)

end Scribe.Core

namespace Scribe.Lowering

open Scribe.Core
open Scribe.Text (Flat)

/-! ## Checked names -/

variable {name : String} {first : Char}

theorem checkLetters_eq_ok (h : checkLetters name = .ok first) :
    name.toList.head? = some first ∧ ∀ c ∈ name.toList, c.isAlpha = true := by
  unfold checkLetters at h
  split at h
  · cases h
  · next c rest hname =>
    split at h
    · next hall =>
      cases h
      exact ⟨by rw [hname]; rfl, by rw [hname]; exact List.all_eq_true.mp hall⟩
    · cases h

theorem flat_of_checkLetters (h : checkLetters name = .ok first) : Flat name :=
  fun hmem => absurd ((checkLetters_eq_ok h).2 _ hmem) (by decide)

theorem flat_of_checkTypeName (h : checkTypeName name = .ok ()) : Flat name := by
  obtain ⟨_, hfirst, _⟩ := Result.bind_eq_ok.mp h
  exact flat_of_checkLetters hfirst

theorem flat_of_checkMemberName (h : checkMemberName name = .ok ()) : Flat name := by
  obtain ⟨_, hfirst, _⟩ := Result.bind_eq_ok.mp h
  exact flat_of_checkLetters hfirst

theorem flat_of_checkConstantName (h : checkConstantName name = .ok ()) : Flat name := by
  unfold checkConstantName at h
  split at h
  · cases h
  · next c rest hname =>
    split at h
    · cases h
    · split at h
      · next hall =>
        intro hmem
        rw [hname] at hmem
        exact absurd (List.all_eq_true.mp hall _ hmem) (by decide)
      · cases h

/-! ## Locals -/

/-- The name of every local stands on one line. -/
def LocalsNamed (p : Program) : Prop :=
  ∀ l ∈ p.locals, Flat l.name

theorem LocalsNamed.withLocal {p : Program} (h : LocalsNamed p) {l : Local}
    (hl : checkMemberName l.name = .ok ()) : LocalsNamed (p.withLocal l) := by
  intro x hx
  rcases Array.mem_push.mp hx with hx | rfl
  · exact h x hx
  · exact flat_of_checkMemberName hl

mutual

theorem ElabStmt.localsNamed {c c' s s'} (h : ElabStmt c s s' c') (hc : LocalsNamed c.program) :
    LocalsNamed c'.program := by
  cases h with
  | simple hs => exact hc
  | declare hname he ht hvoid hbind => exact hc.withLocal hname
  | conditional hne harms hotherwise => exact hotherwise.localsNamed (harms.localsNamed hc)
  | forLoop hstart he hte hafter hbody =>
    exact hbody.localsNamed (hafter.localsNamed (hstart.localsNamed hc))
  | forEach hname he ht hkind hbody => exact hbody.localsNamed (hc.withLocal hname)

theorem ElabStmts.localsNamed {c c' ss ss'} (h : ElabStmts c ss ss' c')
    (hc : LocalsNamed c.program) : LocalsNamed c'.program := by
  cases h with
  | nil => exact hc
  | cons hs hss => exact hss.localsNamed (hs.localsNamed hc)

theorem ElabPart.localsNamed {c c' part part'} (h : ElabPart c part part' c')
    (hc : LocalsNamed c.program) : LocalsNamed c'.program := by
  cases h with
  | none => exact hc
  | some hs => exact hs.localsNamed hc

theorem ElabArms.localsNamed {c c' arms arms'} (h : ElabArms c arms arms' c')
    (hc : LocalsNamed c.program) : LocalsNamed c'.program := by
  cases h with
  | nil => exact hc
  | cons he hte hblock harms => exact harms.localsNamed (hblock.localsNamed hc)

theorem ElabOtherwise.localsNamed {c c' otherwise otherwise'}
    (h : ElabOtherwise c otherwise otherwise' c') (hc : LocalsNamed c.program) :
    LocalsNamed c'.program := by
  cases h with
  | none => exact hc
  | some hblock => exact hblock.localsNamed hc

end

theorem Drains.localsNamed {p p' : Program} {ds : List Deferred} (h : Drains p ds p')
    (hp : LocalsNamed p) : LocalsNamed p' := by
  induction h with
  | nil => exact hp
  | body hrun _ ih =>
    obtain ⟨body, p1, hlowers, hstore, _⟩ := runBody_eq_ok.mp hrun
    obtain ⟨c2, hblock, rfl⟩ := hlowers.block
    refine ih ?_
    rw [LocalsNamed, Program.locals_store hstore]
    exact hblock.localsNamed hp
  | @members p _ _ id m _ _ _ hrun _ ih =>
    obtain ⟨model, hm⟩ := memberBodies_model hrun
    obtain ⟨hvalid, _, rfl⟩ := (memberBodies_eq_ok hm).mp hrun
    refine ih ?_
    cases he : m.equality with
    | none => exact hp
    | some e => exact hp.withLocal (hvalid e he)

/-! ## All names -/

theorem ConstantsOf.named {q : Program} {cs : List Syntax.Constant} {ks : List Constant}
    (h : ConstantsOf q cs ks) : ∀ k ∈ ks, Flat k.name := by
  induction h with
  | nil => exact List.forall_mem_nil _
  | cons hvalid hname _ _ _ _ _ ih =>
    exact List.forall_mem_cons.mpr ⟨hname ▸ flat_of_checkConstantName hvalid, ih⟩

/-- The names of a lowered program stand on one line. -/
theorem lower_named {m : Syntax.Module} {limit : Option Nat} {p : Program}
    (h : lower m limit = .ok p) : p.Named := by
  obtain ⟨hname, ts, htraced⟩ := lower_traced h
  obtain ⟨_, ts', hdeclares, hdrains⟩ := lower_drains h
  refine ⟨?_, fun k hk => ?_, fun f hf => ?_, fun model hmodel => ?_, ?_⟩
  · have hsame : p.name = m.name := congrArg Program.name htraced.stripped
    exact hsame ▸ flat_of_checkTypeName hname
  · exact htraced.declares.constants.named k (by simpa [htraced.constants_eq] using hk)
  · obtain ⟨x, _, hsignature⟩ :=
      exists_left_of_forall₂ htraced.forall₂_functions (Array.mem_toList_iff.mpr hf)
    refine ⟨hsignature.name ▸ flat_of_checkMemberName hsignature.valid, fun q hq => ?_⟩
    obtain ⟨y, _, hparameter⟩ := exists_left_of_forall₂ hsignature.parameters hq
    exact hparameter.name ▸ flat_of_checkMemberName hparameter.valid
  · obtain ⟨md, hmd, id, _, hmade⟩ :=
      exists_left_of_forall₂ htraced.forall₂_models (Array.mem_toList_iff.mpr hmodel)
    have hvalid := htraced.declares.modelNames md hmd
    refine ⟨hmade.name ▸ flat_of_checkTypeName hvalid, fun f hf => ?_⟩
    obtain ⟨y, _, hfield⟩ := exists_left_of_forall₂ hmade.fields hf
    exact hfield.name ▸ flat_of_checkMemberName hfield.valid
  · exact hdrains.localsNamed (by simp [LocalsNamed, declaredProgram])

end Scribe.Lowering
