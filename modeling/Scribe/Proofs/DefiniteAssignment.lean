import Scribe.Proofs.Rework
import Scribe.Proofs.SetRuns

/-!
# Locals are set when they are read

In a lowered program a local is read only after the statement that binds it was executed in the same
activation, with one exception: what the last part of a `for` declares is known in the body of the
loop, and the first turn comes before that part (`lowered_locals_set`).
-/

namespace Scribe.Lowering

open Scribe.Core

/-! ## Lowered programs -/

theorem ConstantsOf.readsOnly {p : Program} {cs : List Syntax.Constant} {ks : List Constant}
    (h : ConstantsOf p cs ks) : ∀ k ∈ ks, k.value.ReadsOnly [] := by
  induction h with
  | nil => exact List.forall_mem_nil _
  | cons _ _ _ hvalue _ _ _ ih =>
    exact List.forall_mem_cons.mpr ⟨hvalue.isPart.readsOnly (List.forall_mem_nil _), ih⟩

theorem MadeFrom.assigned {p : Program} {callable : Callable} {scope : Scope}
    {block : Syntax.Block} (h : MadeFrom p callable scope block) {body : Block}
    (hbody : p.body? callable = some body) :
    blockAssigned (scope.bindings.map (·.id)) [] body := by
  obtain ⟨q, q', body', hlowers, hbody', _⟩ := h.made
  cases hbody.symm.trans hbody'
  obtain ⟨c1, hblock, _⟩ := hlowers.block
  refine hblock.assigned ?_
  intro b hb
  rw [List.append_nil]
  exact List.mem_map.mpr ⟨b, hb, rfl⟩

/-- Lowering gives programs whose bodies read what is bound by then, and late locals. -/
theorem lower_assigned {m : Syntax.Module} {limit : Option Nat} {p : Program}
    (h : lower m limit = .ok p) : p.Assigned := by
  obtain ⟨_, ts, htraced⟩ := lower_traced h
  refine ⟨?_, ?_⟩
  · intro id k hk
    rw [Program.getConstant?, htraced.constants_eq, List.getElem?_toArray] at hk
    exact htraced.declares.constants.readsOnly k (List.mem_of_getElem? hk)
  · intro callable body hbody
    obtain ⟨scope, block, hmade, hbindings⟩ := htraced.exists_made hbody
    rw [← hbindings]
    exact hmade.assigned hbody

end Scribe.Lowering

namespace Scribe.Machine

open Scribe.Core Scribe.Lowering

section Lowered

variable {m : Syntax.Module} {limit : Option Nat} {p : Program}

/-- The locals that a lowered program reads.

In every activation, each statement that is executed reads, besides what its equality compares with,
only locals whose binding was executed on the way to it, and locals of the last part of a `for` in
one of whose turns it stands. Such a local was bound in the whole turns before, if there were any.

A run stops at an unset local only if the last part of a `for` declares it. -/
theorem lowered_locals_set (h : lower m limit = .ok p) :
    (∀ {callable body}, p.body? callable = some body →
      ∀ {env σ bound t σ1}, Reaches env (fun _ => True) body σ bound t σ1 →
        ∃ late, (∀ e ∈ t.operands,
            e.ReadsOnly ((p.other? callable).toList ++ bound ++ t.ahead ++ late)) ∧
          ∀ id ∈ late, ∃ bound' loop σ' n,
            Reaches env (fun _ => True) body σ bound' loop σ' ∧
              LateTurn env (fun _ => True) loop σ' id n t σ1) ∧
    ∀ {fuel entry arguments σ name σ'}, run p fuel entry arguments σ =
        .error (.fault (.invalidOperation (.localUnset name))) σ' →
      ∃ id ∈ p.lateLocals, ∃ l, p.getLocal? id = some l ∧ l.name = name := by
  have hp := lower_assigned h
  constructor
  · intro callable body hbody env σ bound t σ1 hreaches
    obtain ⟨late, ht, hlate⟩ := hreaches.assigned (hp.bodies hbody)
    exact ⟨late, ht.operands, hlate⟩
  · intro fuel entry arguments σ name σ' hrun
    have hexcused : Excused (fun name => ∃ id ∈ p.lateLocals, ∃ l, p.getLocal? id = some l ∧
        l.name = name) p p.lateLocals := fun id hid l hl => ⟨id, hid, l, hl, rfl⟩
    have hleaves := run_binds hp hexcused fuel entry arguments σ (List.forall_mem_nil _)
    rw [hrun] at hleaves
    exact hleaves name rfl

end Lowered

/-! ## Samples -/

/-- A function that declares before a loop, in its first part and in its body. -/
def doubling : Syntax.Module where
  name := "Loops"
  constants := []
  functions := [
    { name := "main"
      parameters := []
      returnType := .int
      body := [
        .declare "sum" (.int 0),
        .forLoop (some (.declare "i" (.int 0))) (.binary .lessThan (.var "i") (.int 3))
          (some (.assign (.var "i") (.binary .add (.var "i") (.int 1)))) [
            .declare "twice" (.binary .add (.var "i") (.var "i")),
            .assign (.var "sum") (.binary .add (.var "sum") (.var "twice"))],
        .ret (some (.var "sum"))] }]
  models := []

/-- The local of `doubling` with an index. -/
def doublingLocal (i : Nat) : Expr :=
  .var (.binding ⟨i⟩) .int

/-- The statement of `doubling` that reads the local of the first part. -/
def doublingTwice : Stmt :=
  .declare ⟨2⟩ (.binary .add (doublingLocal 1) (doublingLocal 1) .int)

/-- The body of `doubling`. -/
def doublingBody : Block := [
  .declare ⟨0⟩ (.int 0),
  .forLoop (some (.declare ⟨1⟩ (.int 0))) (.binary .lessThan (doublingLocal 1) (.int 3) .bool)
    (some (.assign (doublingLocal 1) (.binary .add (doublingLocal 1) (.int 1) .int))) [
      doublingTwice,
      .assign (doublingLocal 0) (.binary .add (doublingLocal 0) (doublingLocal 2) .int)],
  .ret (some (doublingLocal 0)) (.function ⟨0⟩)]

/-- The program of `doubling`. -/
def doublingProgram : Program where
  name := "Loops"
  functions := #[
    { name := "main"
      parameters := []
      returnType := .int
      owner := none
      body := doublingBody }]
  locals := #[⟨"sum", .int, .declared⟩, ⟨"i", .int, .declared⟩, ⟨"twice", .int, .declared⟩]
  functionMap := [("main", ⟨0⟩)]

theorem doubling_locals_set :
    lower doubling none = .ok doublingProgram ∧
      (∃ σ, Reaches (.ofFuel doublingProgram 7) (fun _ => True) doublingBody { frames := [{}] }
          [⟨0⟩, ⟨1⟩] doublingTwice σ ∧
        ∃ late, (∀ e ∈ doublingTwice.operands, e.ReadsOnly ([⟨0⟩, ⟨1⟩] ++ late)) ∧
          ∀ id ∈ late, ∃ loop σ' n,
            LateTurn (.ofFuel doublingProgram 7) (fun _ => True) loop σ' id n doublingTwice σ) ∧
      ∀ fuel σ name σ', run doublingProgram fuel "main" [] σ ≠
        .error (.fault (.invalidOperation (.localUnset name))) σ' := by
  have hlower : lower doubling none = .ok doublingProgram := by cbv
  have hbody : doublingProgram.body? (.function ⟨0⟩) = some doublingBody := rfl
  obtain ⟨hreads, hstops⟩ := lowered_locals_set hlower
  have hturn := @Enters.turn (.ofFuel doublingProgram 7) _ doublingTwice []
    [.assign (doublingLocal 0) (.binary .add (doublingLocal 0) (doublingLocal 2) .int)] _ _ _ _ _
    (@Begins.forLoop _ (some (.declare ⟨1⟩ (.int 0)))
      (some (.assign (doublingLocal 1) (.binary .add (doublingLocal 1) (.int 1) .int)))
      (.binary .lessThan (doublingLocal 1) (.int 3) .bool) _ 0 6
      { frames := [{ locals := [(⟨0⟩, .int 0)] }] } _ _ _ rfl (.zero _) rfl rfl) rfl
  have hreaches : Reaches (.ofFuel doublingProgram 7) (fun _ => True) doublingBody
      { frames := [{}] } [⟨0⟩, ⟨1⟩] doublingTwice _ :=
    .tail rfl (.head (.inner trivial hturn (.here _ _)))
  refine ⟨hlower, ⟨_, hreaches, ?_⟩, ?_⟩
  · obtain ⟨late, hoperands, hlate⟩ := hreads hbody hreaches
    refine ⟨late, hoperands, fun id hid => ?_⟩
    obtain ⟨_, loop, σ', n, _, hturn⟩ := hlate id hid
    exact ⟨loop, σ', n, hturn⟩
  · intro fuel σ name σ' hrun
    obtain ⟨id, hid, _⟩ := hstops hrun
    have hnone : doublingProgram.lateLocals = [] := rfl
    rw [hnone] at hid
    cases hid

/-- A function that reads, in the body of a `for`, what the last part declares. -/
def lateRead : Syntax.Module where
  name := "Loops"
  constants := []
  functions := [
    { name := "main"
      parameters := []
      returnType := .int
      body := [
        .forLoop none (.bool true) (some (.declare "x" (.int 1))) [.ret (some (.var "x"))],
        .ret (some (.int 0))] }]
  models := []

/-- The program of `lateRead`. -/
def lateReadProgram : Program where
  name := "Loops"
  functions := #[
    { name := "main"
      parameters := []
      returnType := .int
      owner := none
      body := [
        .forLoop none (.bool true) (some (.declare ⟨0⟩ (.int 1)))
          [.ret (some (.var (.binding ⟨0⟩) .int)) (.function ⟨0⟩)],
        .ret (some (.int 0)) (.function ⟨0⟩)] }]
  locals := #[⟨"x", .int, .declared⟩]
  functionMap := [("main", ⟨0⟩)]

/-- `lateRead` lowers, and its run stops in the first turn, before the declaration. -/
theorem lateRead_stops :
    lower lateRead none = .ok lateReadProgram ∧
      ∃ fault σ, run lateReadProgram 8 "main" [] {} = .error (.fault fault) σ ∧
        fault = .invalidOperation (.localUnset "x") ∧
        fault.message = "invalid operation: local `x` read before it was set" := by
  exact ⟨by cbv, _, _, by cbv, rfl, rfl⟩

end Scribe.Machine
