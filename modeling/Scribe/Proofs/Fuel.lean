import Scribe.Proofs.Congruence

/-!
# Fuel

Fuel decides whether a run comes to its end, and nothing else: with more fuel the machine does the
same, except that it may get further where it stopped before (`Refines`).
-/

namespace Scribe.Machine

open Scribe.Core

/-- The second computation does what the first one does, except where that is exhausted. -/
def Refines (α : Type) (x y : Exec α) : Prop :=
  ∀ s, y s = x s ∨ ∃ s', x s = .error .exhausted s'

variable {α : Type} {x y : Exec α}

theorem Refines.refl (x : Exec α) : Refines α x x :=
  fun _ => .inl rfl

theorem Refines.bind {β : Type} {f g : α → Exec β} (h : Refines α x y)
    (hf : ∀ a, Refines β (f a) (g a)) : Refines β (x >>= f) (y >>= g) := by
  intro s
  show EStateM.bind y g s = EStateM.bind x f s ∨ ∃ s', EStateM.bind x f s = _
  unfold EStateM.bind
  obtain heq | ⟨s', hs'⟩ := h s
  · rw [heq]
    cases x s with
    | ok a s1 => exact hf a s1
    | error stop s1 => exact .inl rfl
  · rw [hs']
    exact .inr ⟨s', rfl⟩

theorem Refines.withFrame (h : Refines α x y) (f : Frame) :
    Refines α (Exec.withFrame f x) (Exec.withFrame f y) := by
  intro s
  unfold Exec.withFrame
  obtain heq | ⟨s', hs'⟩ := h { s with frames := f :: s.frames }
  · rw [heq]
    exact .inl rfl
  · rw [hs']
    exact .inr ⟨_, rfl⟩

/-- A computation that comes to its end does the same as its refinement. -/
theorem Refines.eq (h : Refines α x y) {s : State} (hx : ∀ s', x s ≠ .error .exhausted s') :
    y s = x s := by
  obtain heq | ⟨s', hs'⟩ := h s
  · exact heq
  · exact (hx s' hs').elim

theorem refines_coupled : Coupled Refines where
  closed :=
    { pure := fun _ => .refl _
      stop := fun _ _ => .refl _
      exhausted := .refl _
      bind := fun hact hf => hact.bind hf
      look := fun _ => .refl _
      change := fun _ => .refl _
      alloc := fun _ => .refl _
      constant := fun _ _ => .refl _
      unset := fun _ => .refl _
      frame := .refl _
      setFrame := fun _ => .refl _ }
  bind := Refines.bind

section Runs

variable (p : Program) {fuel fuel' : Nat} (hle : fuel ≤ fuel')

include hle

theorem ofFuel_refines : (Env.ofFuel p fuel).Pairs Refines (Env.ofFuel p fuel') := by
  refine refines_coupled.calls (fun f _ _ h => h.withFrame f) p (.inr ⟨hle, fun α y s => ?_⟩)
  exact .inr ⟨s, rfl⟩

theorem initFrom_refines (index : Nat) (cs : List Constant) :
    Refines Unit (initFrom (.ofFuel p fuel) index cs) (initFrom (.ofFuel p fuel') index cs) := by
  induction cs generalizing index with
  | nil => exact .refl _
  | cons c rest ih =>
    have hvalue := refines_coupled.eval (ofFuel_refines p hle) c.value
    exact (hvalue.bind fun v => .refl _).bind fun _ => ih (index + 1)

theorem initConstants_refines :
    Refines Unit (initConstants (.ofFuel p fuel)) (initConstants (.ofFuel p fuel')) := by
  refine (Refines.refl get).bind fun s => ?_
  show Refines Unit (if s.constants.length = p.constants.size then _ else _)
    (if s.constants.length = p.constants.size then _ else _)
  split
  · exact .refl _
  · exact (initFrom_refines p hle 0 _).withFrame _

/-- More fuel changes a run only if it was exhausted. -/
theorem run_refines (entry : String) (arguments : List Value) :
    Refines Value (run p fuel entry arguments) (run p fuel' entry arguments) := by
  unfold Machine.run
  cases p.function? entry with
  | none => exact .refl _
  | some id =>
    refine (Refines.refl _).bind fun f => ?_
    dsimp only
    split
    · refine (Refines.refl get).bind fun s => (Refines.refl _).bind fun _ => ?_
      refine (initConstants_refines p hle).bind fun _ => ?_
      exact refines_coupled.paired.callFunction (ofFuel_refines p hle) id none arguments
    · exact .refl _

end Runs

/-- With other fuel the constants cannot be evaluated either, for the same reason or because there
is too little of it. -/
theorem initConstants_stops {p : Program} {fuel : Nat} {s s' : State} {stop : Stop}
    (h : initConstants (.ofFuel p fuel) s = .error stop s') (hstop : stop ≠ .exhausted)
    (fuel' : Nat) : ∃ stop' s'', initConstants (.ofFuel p fuel') s = .error stop' s'' ∧
      (stop' = stop ∨ fuel' < fuel ∧ stop' = .exhausted) := by
  by_cases hle : fuel ≤ fuel'
  · refine ⟨stop, s', ?_, .inl rfl⟩
    rw [← h]
    refine (initConstants_refines p hle).eq fun s1 hs1 => ?_
    cases h.symm.trans hs1
    exact hstop rfl
  · obtain heq | ⟨s1, hs1⟩ := initConstants_refines p (show fuel' ≤ fuel by omega) s
    · exact ⟨stop, s', heq.symm.trans h, .inl rfl⟩
    · exact ⟨.exhausted, s1, hs1, .inr ⟨by omega, rfl⟩⟩

end Scribe.Machine
