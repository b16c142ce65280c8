import Mathlib.Logic.Equiv.Basic
import Scribe.Proofs.RelabeledModule
import Scribe.Proofs.WellFormed

/-!
# Lowering does not depend on the choice of names

Lowering asks about names whether they are the same, whether the conventions allow them and whether
they are built-in operations. A relabeled module therefore becomes the relabeled program, or is
refused for the same kind of reason (`lower_relabel`).
-/

namespace Scribe.Lowering

open Scribe.Core

variable {r : String → String}

/-- Lowering depends on names only through which of them are the same, which of them the conventions
allow and which of them are built-in operations: a module under other names becomes a program if and
only if the module does, and then the same program under the other names; otherwise it is refused
with an error of the same kind. -/
theorem lower_relabel (hr : Relabeling r) (m : Syntax.Module) (limit : Option Nat) :
    ((∃ p, lower (m.relabel r) limit = .ok p) ↔ ∃ p, lower m limit = .ok p) ∧
    (∀ p, lower m limit = .ok p → lower (m.relabel r) limit = .ok (p.relabel r)) ∧
    ∀ e, lower m limit = .error e →
      ∃ e', lower (m.relabel r) limit = .error e' ∧ e'.kind = e.kind := by
  obtain ⟨p, p', hp, hp', rfl⟩ | ⟨e, e', he, he', hsame⟩ := (lower_mirrors hr m limit).cases
  · rw [hp, hp']
    refine ⟨⟨fun _ => ⟨p, rfl⟩, fun _ => ⟨p.relabel r, rfl⟩⟩, ?_, by rintro _ ⟨⟩⟩
    rintro _ ⟨⟩
    rfl
  · rw [he, he']
    refine ⟨⟨by rintro ⟨_, ⟨⟩⟩, by rintro ⟨_, ⟨⟩⟩⟩, by rintro _ ⟨⟩, ?_⟩
    rintro _ ⟨⟩
    exact ⟨e', rfl, hsame.kind⟩

/-- Two names change places. -/
theorem relabeling_swap {a b : String} (ha : a ∉ ["add", "push", "pop", "contains"])
    (hb : b ∉ ["add", "push", "pop", "contains"])
    (htype : checkTypeName a = .ok () ↔ checkTypeName b = .ok ())
    (hmember : checkMemberName a = .ok () ↔ checkMemberName b = .ok ())
    (hconstant : checkConstantName a = .ok () ↔ checkConstantName b = .ok ()) :
    Relabeling (Equiv.swap a b) := by
  have hkept (P : String → Prop) (hP : P a ↔ P b) (name : String) :
      P (Equiv.swap a b name) ↔ P name := by
    rw [Equiv.swap_apply_def]
    by_cases hna : name = a
    · rw [if_pos hna, hna]
      exact hP.symm
    · rw [if_neg hna]
      by_cases hnb : name = b
      · rw [if_pos hnb, hnb]
        exact hP
      · rw [if_neg hnb]
  refine ⟨(Equiv.swap a b).injective, ?_, hkept (checkTypeName · = .ok ()) htype,
    hkept (checkMemberName · = .ok ()) hmember, hkept (checkConstantName · = .ok ()) hconstant⟩
  intro name hname
  exact Equiv.swap_apply_of_ne_of_ne (fun h => ha (h ▸ hname)) (fun h => hb (h ▸ hname))

/-- The method `total` and the local `sum` of a sample change names, and all that refers to them. -/
theorem sampleModule_relabel :
    Relabeling (Equiv.swap "total" "sum") ∧
    (sampleModule.relabel (Equiv.swap "total" "sum")).models.map (·.methods.map (·.name)) =
      [["sum"]] ∧
    lower (sampleModule.relabel (Equiv.swap "total" "sum")) none =
      .ok (sampleProgram.relabel (Equiv.swap "total" "sum")) := by
  have hr : Relabeling (Equiv.swap "total" "sum") := by
    have htotal : checkTypeName "total" = .error (.invalidName "total" .uppercaseFirst) := by rfl
    have hsum : checkTypeName "sum" = .error (.invalidName "sum" .uppercaseFirst) := by rfl
    refine relabeling_swap (by decide) (by decide) (iff_of_false ?_ ?_)
      (iff_of_true (by rfl) (by rfl)) (iff_of_true (by rfl) (by rfl))
    · rw [htotal]
      rintro ⟨⟩
    · rw [hsum]
      rintro ⟨⟩
  exact ⟨hr, by decide, (lower_relabel hr sampleModule none).2.1 _ lower_sampleModule⟩

end Scribe.Lowering
