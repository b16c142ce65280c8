import Scribe.Proofs.RelabeledModule

/-!
# Internal errors cannot happen

Nothing recovers from an error, so a lookup that leads nowhere would be the answer of the whole
lowering. It never is (`lower_not_internal`): a module is refused for the same reason under its own
names, and reasons that correspond are about the module.
-/

namespace Scribe.Lowering

open Scribe.Core

/-- Every name stays as it is. -/
theorem relabeling_id : Relabeling id :=
  ⟨Function.injective_id, fun _ _ => rfl, fun _ => Iff.rfl, fun _ => Iff.rfl, fun _ => Iff.rfl⟩

theorem lower_blames (m : Syntax.Module) (limit : Option Nat) :
    ∀ e, lower m limit = .error e → ¬e.Internal := by
  intro e herror
  obtain ⟨p, _, hok, _⟩ | ⟨e', _, herror', _, he⟩ := (lower_mirrors relabeling_id m limit).cases
  · cases hok.symm.trans herror
  · cases herror'.symm.trans herror
    exact he.external

/-- Lowering never fails by a mistake of its own, whatever the module and the limit are: no id and
no index leads nowhere, every return is inside a callable, and a body of an equality or a hash finds
its place. What is written was read under the same id before, and a body that has been run is in
the program. -/
theorem lower_not_internal (m : Syntax.Module) (limit : Option Nat) :
    lower m limit ≠ .error (.structural .dangling) ∧
    lower m limit ≠ .error (.structural .returnOutsideCallable) ∧
    lower m limit ≠ .error (.structural .equalityWithoutSkeleton) ∧
    lower m limit ≠ .error (.structural .hashingWithoutSkeleton) ∧
    ∀ b c c', runBody b c = .ok () c' → ∃ body, c'.program.body? b.callable = some body := by
  have hblames := lower_blames m limit
  refine ⟨fun h => hblames _ h trivial, fun h => hblames _ h trivial,
    fun h => hblames _ h trivial, fun h => hblames _ h trivial, ?_⟩
  intro b c c' hrun
  obtain ⟨_, body, _, _, hstored⟩ := runBody_stored hrun
  exact ⟨body, hstored.stored⟩

end Scribe.Lowering
