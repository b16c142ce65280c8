import Mathlib
import Scribe.Proofs.Pending

/-!
# Lowered programs are well formed

A module that lowering accepts becomes a program in which every node says the truth about itself and
every reference leads somewhere. There are no other conditions on the module.

Sample programs are evaluated by `cbv`, which works with the equations of all library functions that
they run through. This is the first module with a sample, and imports the library for it.
-/

namespace Scribe.Core

open Scribe.Lowering

/-- A finished program: its constants and bodies are sound, and so is what its equalities compare
with. -/
structure Program.Sound (p : Program) : Prop where
  indexed : p.Indexed
  constants : p.ConstantsSound
  bodies : ∀ {callable body}, p.body? callable = some body → p.Complete callable body
  others : ∀ model, OtherSound p model

end Scribe.Core

namespace Scribe.Lowering

open Scribe.Core

variable {m : Syntax.Module} {limit : Option Nat} {p : Program}

/-- When no work is left, every body is complete. -/
theorem lower_sound (h : lower m limit = .ok p) : p.Sound := by
  have hpending := lower_pending h
  refine ⟨hpending.signatures.indexed, hpending.constants, fun {callable body} hbody => ?_,
    hpending.others⟩
  obtain ⟨d, hd, _⟩ | hcomplete := hpending.bodies hbody
  · cases hd
  · exact hcomplete

/-! ## A sample -/

/-- A module with a bit of everything, for examples. -/
def sampleModule : Syntax.Module where
  name := "Shop"
  constants := [⟨"limit", .int 3⟩, ⟨"sizes", .list [.var "limit", .int 5]⟩]
  functions := [
    { name := "last"
      parameters := [⟨"items", .list (.model "Item")⟩]
      returnType := .model "Item"
      body := [.ret (some (.pop (.var "items")))] },
    { name := "find"
      parameters := [⟨"items", .list (.model "Item")⟩, ⟨"size", .int⟩]
      returnType := .model "Item"
      body := [
        .forEach "item" (.var "items") [
          .conditional [(.binary .greaterThan (.property (.var "item") "size") (.var "limit"),
            [.cont])] none,
          .conditional [(.binary .equals (.call (.method (.var "item") "total") []) (.var "size"),
            [.ret (some (.var "item"))])] none],
        .ret (some .null)] }]
  models := [
    { name := "Item"
      fields := [⟨"size", .int⟩, ⟨"next", .model "Item"⟩]
      methods := [
        { name := "total"
          parameters := []
          returnType := .int
          body := [
            .declare "sum" (.var "size"),
            .conditional [(.binary .notEqual (.var "next") .null,
              [.assign (.var "sum") (.binary .add (.var "sum")
                (.call (.method (.var "next") "total") []))])] none,
            .ret (some (.var "sum"))] }]
      equality := some ⟨"other", [
        .ret (some (.binary .equals (.var "size") (.property (.var "other") "size")))]⟩
      hashing := some [.ret (some (.unary .hash (.var "size")))] }]

/-- The program of `sampleModule`. -/
def sampleProgram : Program :=
  match lower sampleModule none with
  | .ok p => p
  | .error _ => { name := "" }

theorem lower_sampleModule : lower sampleModule none = .ok sampleProgram := by
  cbv

/-! ## Well-formedness -/

/-- Every node of a lowered program has the type and the other facts that it states. -/
theorem lower_wellTyped (h : lower m limit = .ok p) : p.WellTyped := by
  have hsound := lower_sound h
  refine ⟨?_, ?_, fun hbody => (hsound.bodies hbody).returns⟩
  · intro id c hc
    obtain ⟨hall, ht⟩ := hsound.constants id c hc
    exact ⟨hall.imp fun _ hs => hs.truthful, ht⟩
  · intro callable body hbody s hs
    refine ((hsound.bodies hbody).sound s hs).imp fun _ hs => ⟨hs.agrees, fun e he => ?_⟩
    exact (hs.operands e he).imp fun _ he => he.truthful

theorem sampleProgram_wellTyped :
    lower sampleModule none = .ok sampleProgram ∧ sampleProgram.WellTyped :=
  ⟨lower_sampleModule, lower_wellTyped lower_sampleModule⟩

/-- Every reference of a lowered program leads somewhere, and every local is bound once. -/
theorem lower_wellScoped (h : lower m limit = .ok p) : p.WellScoped := by
  have hpending := lower_pending h
  have hsound := lower_sound h
  refine ⟨hpending.signatures, ?_, ?_, fun hbody => (hsound.bodies hbody).control,
    fun hother => hsound.others _ _ hother, ?_⟩
  · intro id c hc
    exact (hsound.constants id c hc).1.imp fun _ hs => hs.inScope
  · intro callable body hbody s hs
    refine ((hsound.bodies hbody).sound s hs).imp fun _ hs => ⟨hs.inScope, fun e he => ?_⟩
    exact (hs.operands e he).imp fun _ he => he.inScope
  · intro id l hl
    obtain ⟨hlt, _⟩ := Array.getElem?_eq_some_iff.mp hl
    have hnodup : ((List.range p.locals.size).map LocalId.mk).Nodup :=
      List.pairwise_map.mpr (List.nodup_range.imp fun hne heq => hne (LocalId.mk.inj heq))
    rw [hpending.bound.count_eq, hnodup.count, if_pos]
    exact List.mem_map.mpr ⟨id.index, List.mem_range.mpr hlt, rfl⟩

theorem sampleProgram_wellScoped :
    lower sampleModule none = .ok sampleProgram ∧ sampleProgram.WellScoped :=
  ⟨lower_sampleModule, lower_wellScoped lower_sampleModule⟩

end Scribe.Lowering
