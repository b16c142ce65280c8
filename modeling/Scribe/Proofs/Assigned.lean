import Scribe.Proofs.Reach
import Scribe.Proofs.Resolve

/-!
# Locals are bound before they are read

`Stmt.Assigned set late s` follows the order in which `s` is executed. It says that each local that
`s` reads is one of `set`, which are bound before, is bound by then in `s` itself, or is one of
`late`. The last part of a `for` is lowered before the body and executed after it. So a local that
it declares is known in the body, and nothing binds it before the first turn: such a local is late.

Lowering gives statements of this kind (`ElabStmts.assigned`), and so every statement that execution
comes to is of this kind, with the locals that were bound on the way (`Reaches.assigned`).
-/

namespace Scribe.Core

open Scribe.Machine (declared)

/-! ## The judgement -/

/-- An expression reads no locals but `ids`. -/
def Expr.ReadsOnly (ids : List LocalId) (e : Expr) : Prop :=
  e.All fun node => ∀ id t, node = .var (.binding id) t → id ∈ ids

mutual

/-- A statement reads no locals but those of `set` and `late`, and what it has bound by then. -/
def Stmt.Assigned (set late : List LocalId) : Stmt → Prop
  | .conditional arms otherwise => armsAssigned set late arms ∧ otherwiseAssigned set late otherwise
  | .forLoop start condition after body =>
    partAssigned set late start ∧
    condition.ReadsOnly (set ++ start.toList.flatMap declared ++ late) ∧
    partAssigned (set ++ start.toList.flatMap declared) late after ∧
    blockAssigned (set ++ start.toList.flatMap declared) (late ++ after.toList.flatMap declared) body
  | .forEach item iterable _ _ body =>
    iterable.ReadsOnly (set ++ late) ∧ blockAssigned (set ++ [item]) late body
  | s => ∀ e ∈ s.operands, e.ReadsOnly (set ++ late)

def blockAssigned (set late : List LocalId) : List Stmt → Prop
  | [] => True
  | s :: rest => s.Assigned set late ∧ blockAssigned (set ++ declared s) late rest

def partAssigned (set late : List LocalId) : Option Stmt → Prop
  | none => True
  | some s => s.Assigned set late

def armsAssigned (set late : List LocalId) : List (Expr × List Stmt) → Prop
  | [] => True
  | (condition, block) :: rest =>
    condition.ReadsOnly (set ++ late) ∧ blockAssigned set late block ∧ armsAssigned set late rest

def otherwiseAssigned (set late : List LocalId) : Option (List Stmt) → Prop
  | none => True
  | some block => blockAssigned set late block

end

/-- The locals that a statement binds before it evaluates its own operands. -/
def Stmt.ahead : Stmt → List LocalId
  | .forLoop start _ _ _ => start.toList.flatMap declared
  | _ => []

mutual

/-- The locals that the last parts of the `for` loops in a statement declare. -/
def Stmt.lateBinders : Stmt → List LocalId
  | .conditional arms otherwise => armsLate arms ++ otherwiseLate otherwise
  | .forLoop start _ after body =>
    partLate start ++ partLate after ++ after.toList.flatMap declared ++ blockLate body
  | .forEach _ _ _ _ body => blockLate body
  | .declare _ _ | .assign _ _ | .ret _ _ | .brk | .cont | .add _ _ | .push _ _ | .pop _
  | .call _ _ _ _ => []

def blockLate : List Stmt → List LocalId
  | [] => []
  | s :: rest => s.lateBinders ++ blockLate rest

def partLate : Option Stmt → List LocalId
  | none => []
  | some s => s.lateBinders

def armsLate : List (Expr × List Stmt) → List LocalId
  | [] => []
  | (_, block) :: rest => blockLate block ++ armsLate rest

def otherwiseLate : Option (List Stmt) → List LocalId
  | none => []
  | some block => blockLate block

end

/-- The locals of a program that the last part of a `for` declares. -/
def Program.lateLocals (p : Program) : List LocalId :=
  p.functions.toList.flatMap (fun f => blockLate f.body) ++ p.models.toList.flatMap fun m =>
    m.equality.elim [] (fun e => blockLate e.body) ++ m.hashing.elim [] blockLate

theorem Program.blockLate_subset {p : Program} {callable : Callable} {body : Block}
    (h : p.body? callable = some body) : blockLate body ⊆ p.lateLocals := by
  intro id hid
  rw [lateLocals, List.mem_append, List.mem_flatMap, List.mem_flatMap]
  cases callable with
  | function function =>
    obtain ⟨f, hf, rfl⟩ := Option.map_eq_some_iff.mp h
    exact .inl ⟨f, Array.mem_toList_iff.mpr (Array.mem_of_getElem? hf), hid⟩
  | equality model =>
    obtain ⟨e, he, rfl⟩ := Option.map_eq_some_iff.mp h
    obtain ⟨m, hm, he⟩ := Option.bind_eq_some_iff.mp he
    refine .inr ⟨m, Array.mem_toList_iff.mpr (Array.mem_of_getElem? hm), ?_⟩
    rw [he]
    exact List.mem_append_left _ hid
  | hashing model =>
    obtain ⟨m, hm, hb⟩ := Option.bind_eq_some_iff.mp h
    refine .inr ⟨m, Array.mem_toList_iff.mpr (Array.mem_of_getElem? hm), ?_⟩
    rw [hb]
    exact List.mem_append_right _ hid

/-- A program whose constants read no locals, and whose bodies begin with what an equality compares
with and nothing else. -/
structure Program.Assigned (p : Program) : Prop where
  constants : ∀ {id c}, p.getConstant? id = some c → c.value.ReadsOnly []
  bodies : ∀ {callable body}, p.body? callable = some body →
    blockAssigned (p.other? callable).toList [] body

variable {set late : List LocalId}

theorem armsAssigned.conditions {arms : List (Expr × List Stmt)} (h : armsAssigned set late arms) :
    ∀ arm ∈ arms, arm.1.ReadsOnly (set ++ late) := by
  induction arms with
  | nil => exact List.forall_mem_nil _
  | cons arm arms ih =>
    obtain ⟨hcondition, _, harms⟩ := h
    exact List.forall_mem_cons.mpr ⟨hcondition, ih harms⟩

theorem Stmt.Assigned.operands {s : Stmt} (h : s.Assigned set late) :
    ∀ e ∈ s.operands, e.ReadsOnly (set ++ s.ahead ++ late) := by
  have hsimple (h : ∀ e ∈ s.operands, e.ReadsOnly (set ++ late)) (hahead : s.ahead = []) :
      ∀ e ∈ s.operands, e.ReadsOnly (set ++ s.ahead ++ late) := by
    rw [hahead, List.append_nil]
    exact h
  cases s with
  | conditional arms otherwise =>
    refine hsimple ?_ rfl
    intro e he
    obtain ⟨arm, harm, rfl⟩ := List.mem_map.mp he
    exact h.1.conditions arm harm
  | forLoop start condition after body => exact List.forall_mem_singleton.mpr h.2.1
  | forEach item iterable kind itemType body =>
    exact hsimple (List.forall_mem_singleton.mpr h.1) rfl
  | _ => exact hsimple h rfl

/-- In a block, what stands before a statement is bound for it. -/
theorem blockAssigned.at {before rest : List Stmt} {t : Stmt}
    (h : blockAssigned set late (before ++ t :: rest)) :
    t.Assigned (set ++ before.flatMap declared) late := by
  induction before generalizing set with
  | nil =>
    rw [List.flatMap_nil, List.append_nil]
    exact h.1
  | cons s before ih =>
    rw [List.flatMap_cons, ← List.append_assoc]
    exact ih h.2

theorem armsAssigned.at {arms later : List (Expr × List Stmt)} {condition : Expr}
    {block : List Stmt} (h : armsAssigned set late (arms ++ (condition, block) :: later)) :
    blockAssigned set late block := by
  induction arms with
  | nil => exact h.2.1
  | cons arm arms ih => exact ih h.2.2

end Scribe.Core

namespace Scribe.Lowering

open Scribe.Core
open Scribe.Machine (declared)

/-! ## Lowered code -/

section Expr

variable {p : Program} {scope : Scope} {ids : List LocalId}

/-- Lowered code reads the locals that its scope knows. -/
theorem IsPart.readsOnly {e' : Expr} (h : IsPart p scope e')
    (hs : ∀ b ∈ scope.bindings, b.id ∈ ids) : e'.ReadsOnly ids := by
  induction e' using Expr.nodeInduction with
  | h e' ih =>
  obtain ⟨e, he⟩ | ⟨t, rfl⟩ := h
  · refine .intro ?_ fun c hc => ih c hc (he.parts c hc)
    rintro id t rfl
    cases he with
    | var hd _ => exact hs _ (Scope.mem_bindings_of_resolve hd)
  · exact .intro (by rintro _ _ ⟨⟩) (List.forall_mem_nil _)

end Expr

/-- The locals that a context knows are among `set` and `late`. -/
def Context.Shows (set late : List LocalId) (c : Context) : Prop :=
  ∀ b ∈ c.scope.bindings, b.id ∈ set ++ late

theorem Context.Shows.push {set late : List LocalId} {c : Context} (h : c.Shows set late)
    {frame : Frame} (hframe : frame.bindings = []) :
    Context.Shows set late { c with scope := frame :: c.scope } := by
  intro b hb
  rw [Scope.bindings_cons, hframe] at hb
  exact h b hb

variable {c c' : Context}

theorem ElabStmt.mem_declared {s : Syntax.Stmt} {s' : Stmt} (h : ElabStmt c s s' c') :
    ∀ b ∈ c'.scope.bindings, b ∈ c.scope.bindings ∨ b.id ∈ declared s' :=
  h.mem_scope (by rintro _ _ rfl; exact List.mem_cons_self)

theorem ElabPart.mem_declared {part : Option Syntax.Stmt} {part' : Option Stmt}
    (h : ElabPart c part part' c') :
    ∀ b ∈ c'.scope.bindings, b ∈ c.scope.bindings ∨ b.id ∈ part'.toList.flatMap declared := by
  cases h with
  | none => exact fun b hb => .inl hb
  | some hs =>
    rw [Option.toList_some, List.flatMap_singleton]
    exact hs.mem_declared

/-- What is declared where it is executed joins the locals that are set. -/
theorem Context.Shows.set {set late new : List LocalId} (h : c.Shows set late)
    (hnew : ∀ b ∈ c'.scope.bindings, b ∈ c.scope.bindings ∨ b.id ∈ new) :
    c'.Shows (set ++ new) late := by
  intro b hb
  simp only [List.mem_append]
  rcases hnew b hb with hb | hb
  · rcases List.mem_append.mp (h b hb) with hb | hb
    · exact .inl (.inl hb)
    · exact .inr hb
  · exact .inl (.inr hb)

/-- What is declared where it is executed later joins the late locals. -/
theorem Context.Shows.late {set late new : List LocalId} (h : c.Shows set late)
    (hnew : ∀ b ∈ c'.scope.bindings, b ∈ c.scope.bindings ∨ b.id ∈ new) :
    c'.Shows set (late ++ new) := by
  intro b hb
  rw [← List.append_assoc, List.mem_append]
  exact (hnew b hb).imp_left (h b)

mutual

/-- Lowering a statement gives one that reads what its context knows, in the order of execution. -/
theorem ElabStmt.assigned {set late : List LocalId} {c c' s s'} (h : ElabStmt c s s' c')
    (hc : c.Shows set late) : s'.Assigned set late := by
  cases h with
  | simple hs =>
    have hreads (e : Expr) (he : e ∈ s'.operands) := (hs.parts e he).readsOnly hc
    cases hs with
    | _ => exact hreads
  | declare hname he ht hvoid hbind => exact List.forall_mem_singleton.mpr (he.isPart.readsOnly hc)
  | conditional hne harms hotherwise =>
    refine ⟨harms.assigned hc, hotherwise.assigned ?_⟩
    rw [Context.Shows, harms.adds.2]
    exact hc
  | forLoop hstart he hte hafter hbody =>
    have hloop : Context.Shows set late { c with scope := .forLoop none :: c.scope } := hc.push rfl
    have hc1 := hloop.set hstart.mem_declared
    -- the last part is known in the body, which is executed before it
    have hc2 := hc1.late hafter.mem_declared
    exact ⟨hstart.assigned hloop, he.isPart.readsOnly hc1, hafter.assigned hc1,
      hbody.assigned (hc2.push rfl)⟩
  | forEach hname he ht hkind hbody =>
    refine ⟨he.isPart.readsOnly hc, hbody.assigned ?_⟩
    refine hc.set fun b hb => ?_
    rw [Scope.bindings_cons, Scope.bindings_cons] at hb
    rcases List.mem_cons.mp hb with rfl | hb
    · exact .inr List.mem_cons_self
    · exact .inl hb

theorem ElabStmts.assigned {set late : List LocalId} {c c' block block'}
    (h : ElabStmts c block block' c') (hc : c.Shows set late) : blockAssigned set late block' := by
  cases h with
  | nil => exact trivial
  | cons hs hss => exact ⟨hs.assigned hc, hss.assigned (hc.set hs.mem_declared)⟩

theorem ElabPart.assigned {set late : List LocalId} {c c' part part'}
    (h : ElabPart c part part' c') (hc : c.Shows set late) : partAssigned set late part' := by
  cases h with
  | none => exact trivial
  | some hs => exact hs.assigned hc

theorem ElabArms.assigned {set late : List LocalId} {c c' arms arms'}
    (h : ElabArms c arms arms' c') (hc : c.Shows set late) : armsAssigned set late arms' := by
  cases h with
  | nil => exact trivial
  | cons he hte hblock harms =>
    exact ⟨he.isPart.readsOnly hc, hblock.assigned (hc.push rfl), harms.assigned hc⟩

theorem ElabOtherwise.assigned {set late : List LocalId} {c c' otherwise otherwise'}
    (h : ElabOtherwise c otherwise otherwise' c') (hc : c.Shows set late) :
    otherwiseAssigned set late otherwise' := by
  cases h with
  | none => exact trivial
  | some hblock => exact hblock.assigned (hc.push rfl)

end

end Scribe.Lowering

namespace Scribe.Machine

open Scribe.Core

/-! ## Code that execution comes to -/

/-- `LateTurn env P loop σ id n t σ'` says that `t` is executed in state `σ'` in a turn of `loop`, a
`for` whose last part declares `id`, after `n` whole turns. A whole turn ends with its last part, so
the declaration was executed `n` times before. -/
def LateTurn (env : Env) (P : Place → Prop) (loop : Stmt) (σ : State) (id : LocalId) (n : Nat)
    (t : Stmt) (σ' : State) : Prop :=
  ∃ start condition value body bound σ1 σ2 σ3,
    loop = .forLoop start condition (some (.declare id value)) body ∧
    execPart env start σ = .ok () σ1 ∧
    Turns (truth (eval env condition)) (execBlock env body)
      (execPart env (some (.declare id value))) n σ1 σ2 ∧
    truth (eval env condition) σ2 = .ok true σ3 ∧
    Reaches env P body σ3 bound t σ'

theorem mem_declared_part {part : Option Stmt} {id : LocalId}
    (h : id ∈ part.toList.flatMap declared) : ∃ value, part = some (.declare id value) := by
  obtain ⟨s, hs, hid⟩ := List.mem_flatMap.mp h
  rw [Option.mem_toList] at hs
  cases s with
  | declare id' value =>
    rw [declared, List.mem_singleton] at hid
    subst hid
    exact ⟨value, hs⟩
  | _ => cases hid

section

variable {env : Env} {P : Place → Prop} {s t u : Stmt} {place : Place} {set late : List LocalId}
  {bound bound' : List LocalId} {σ σ1 σ2 : State}

/-- A statement directly inside another one reads what is set for the other one or bound on the way.
Only in a turn of a `for` a late local may join. -/
theorem Enters.assigned (h : Enters env s σ place bound u σ1) (hs : s.Assigned set late) :
    ∃ new, u.Assigned (set ++ bound) (late ++ new) ∧
      ∀ id ∈ new, ∀ {bound' t σ2}, Comes env P u σ1 bound' t σ2 →
        ∃ n, LateTurn env P s σ id n t σ2 := by
  cases h with
  | arm harms hcondition hbefore =>
    refine ⟨[], ?_, List.forall_mem_nil _⟩
    rw [List.append_nil]
    exact hs.1.at.at
  | otherwise harms hbefore =>
    refine ⟨[], ?_, List.forall_mem_nil _⟩
    have hblock : blockAssigned set late _ := hs.2
    rw [List.append_nil]
    exact hblock.at
  | turn hbegins hbefore =>
    rw [← List.append_assoc]
    cases hbegins with
    | @forLoop start after _ _ _ _ _ _ _ _ hstart hturns hfuel hcondition =>
      refine ⟨after.toList.flatMap declared, hs.2.2.2.at, ?_⟩
      intro id hid bound' t σ2 hcomes
      obtain ⟨value, rfl⟩ := mem_declared_part hid
      exact ⟨_, _, _, _, _, _, _, _, _, rfl, hstart, hturns, hcondition, .intro hbefore hcomes⟩
    | forEach hiterable hitems hseen hbind =>
      refine ⟨[], ?_, List.forall_mem_nil _⟩
      rw [List.append_nil]
      exact hs.2.at
  | start =>
    refine ⟨[], ?_, List.forall_mem_nil _⟩
    rw [List.append_nil, List.append_nil]
    exact hs.1
  | after hbegins hbody hflow =>
    refine ⟨[], ?_, List.forall_mem_nil _⟩
    rw [List.append_nil]
    cases hbegins with
    | forLoop hstart hturns hfuel hcondition => exact hs.2.2.1

/-- Every statement that execution comes to reads what is set at the start or bound on the way, and
late locals: those from the start, and those of the loops in whose turns it stands. -/
theorem Comes.assigned (h : Comes env P s σ bound t σ1) (hs : s.Assigned set late) :
    ∃ late', t.Assigned (set ++ bound) late' ∧ ∀ id ∈ late', id ∈ late ∨
      ∃ bound' loop σ' n, Comes env P s σ bound' loop σ' ∧ LateTurn env P loop σ' id n t σ1 := by
  induction h generalizing set late with
  | here s σ =>
    rw [List.append_nil]
    exact ⟨late, hs, fun id hid => .inl hid⟩
  | inner hplace henters hcomes ih =>
    obtain ⟨new, hu, hnew⟩ := henters.assigned (P := P) hs
    obtain ⟨late', ht, hlate⟩ := ih hu
    rw [← List.append_assoc]
    refine ⟨late', ht, fun id hid => ?_⟩
    rcases hlate id hid with hid | ⟨bound', loop, σ', n, hloop, hturn⟩
    · rcases List.mem_append.mp hid with hid | hid
      · exact .inl hid
      · obtain ⟨n, hturn⟩ := hnew id hid hcomes
        exact .inr ⟨_, _, _, n, .here _ _, hturn⟩
    · exact .inr ⟨_, loop, σ', n, .inner hplace henters hloop, hturn⟩

theorem Reaches.assigned {block : List Stmt} (h : Reaches env P block σ bound t σ1)
    (hblock : blockAssigned set [] block) :
    ∃ late, t.Assigned (set ++ bound) late ∧ ∀ id ∈ late,
      ∃ bound' loop σ' n, Reaches env P block σ bound' loop σ' ∧
        LateTurn env P loop σ' id n t σ1 := by
  cases h with
  | intro hbefore hcomes =>
    obtain ⟨late, ht, hlate⟩ := hcomes.assigned hblock.at
    rw [← List.append_assoc]
    refine ⟨late, ht, fun id hid => ?_⟩
    obtain ⟨⟨⟩⟩ | ⟨bound', loop, σ', n, hloop, hturn⟩ := hlate id hid
    exact ⟨_, loop, σ', n, .intro hbefore hloop, hturn⟩

end

end Scribe.Machine
