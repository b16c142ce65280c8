import Scribe.Lowering.Module

/-!
# What a successful computation did

A sequence of steps succeeds exactly if each step does, and then the results of the steps are known.
There is one such equation for each way to build a result (`Checked`), a declaration (`Build`) or a
lowering computation (`Lower`). Proofs about lowering take a computation apart with these equations
and do not unfold the monads.
-/

namespace Scribe.Lowering

open Scribe.Core

variable {α β ε σ : Type}

/-! ## Results -/

namespace Result

theorem bind_eq_ok {x : Except ε α} {f : α → Except ε β} {b : β} :
    (x >>= f) = .ok b ↔ ∃ a, x = .ok a ∧ f a = .ok b := by
  cases x with
  | error e =>
    constructor
    · intro h
      cases h
    · rintro ⟨a, ha, _⟩
      cases ha
  | ok a =>
    constructor
    · intro h
      exact ⟨a, rfl, h⟩
    · rintro ⟨a', ha, hf⟩
      cases ha
      exact hf

theorem pure_eq_ok {a b : α} : (pure a : Except ε α) = .ok b ↔ a = b :=
  ⟨Except.ok.inj, congrArg Except.ok⟩

theorem throw_eq_ok {e : ε} {a : α} : (throw e : Except ε α) = .ok a ↔ False :=
  ⟨by rintro ⟨⟩, by rintro ⟨⟩⟩

end Result

theorem Checked.ofOption_eq_ok {o : Option α} {a : α} :
    Checked.ofOption o = .ok a ↔ o = some a := by
  cases o with
  | none => exact ⟨by rintro ⟨⟩, by rintro ⟨⟩⟩
  | some b => exact ⟨fun h => congrArg some (Except.ok.inj h), fun h => by cases h; rfl⟩

/-! ## Computations with a state -/

namespace Step

variable {s s' : σ} {a : α} {b : β}

variable {x : EStateM ε σ α} {f : α → EStateM ε σ β} {e : ε} {s1 : σ} {u : PUnit} {bs : List β}
  {xs : List α}

theorem bind_of_ok (h : x s = .ok a s') : (x >>= f) s = f a s' := by
  show EStateM.bind x f s = _
  rw [EStateM.bind, h]

theorem bind_of_error (h : x s = .error e s') : (x >>= f) s = .error e s' := by
  show EStateM.bind x f s = _
  rw [EStateM.bind, h]

theorem bind_eq_ok : (x >>= f) s = .ok b s' ↔ ∃ a s1, x s = .ok a s1 ∧ f a s1 = .ok b s' := by
  show EStateM.bind x f s = _ ↔ _
  unfold EStateM.bind
  cases x s with
  | ok a s1 =>
    constructor
    · intro h
      exact ⟨a, s1, rfl, h⟩
    · rintro ⟨a', s2, ha, hf⟩
      cases ha
      exact hf
  | error e s1 => simp

/-- What is done after a step that changes nothing is done in the same state. -/
theorem kept {P : Prop} {R : σ → Prop} : (∃ s1, (P ∧ s = s1) ∧ R s1) ↔ P ∧ R s := by
  constructor
  · rintro ⟨_, ⟨hP, rfl⟩, hR⟩
    exact ⟨hP, hR⟩
  · rintro ⟨hP, hR⟩
    exact ⟨s, ⟨hP, rfl⟩, hR⟩

theorem map_eq_ok {f : α → β} : (f <$> x) s = .ok b s' ↔ ∃ a, x s = .ok a s' ∧ f a = b := by
  show EStateM.map f x s = _ ↔ _
  unfold EStateM.map
  cases x s with
  | ok a s1 =>
    constructor
    · intro h
      cases h
      exact ⟨a, rfl, rfl⟩
    · rintro ⟨a', ha, rfl⟩
      cases ha
      rfl
  | error e s1 => simp

theorem pure_eq_ok {a' : α} :
    (pure a : EStateM ε σ α) s = .ok a' s' ↔ a = a' ∧ s = s' := by
  constructor
  · intro h
    cases h
    exact ⟨rfl, rfl⟩
  · rintro ⟨rfl, rfl⟩
    rfl

theorem get_eq_ok : (get : EStateM ε σ σ) s = .ok s1 s' ↔ s = s1 ∧ s = s' := by
  constructor
  · intro h
    cases h
    exact ⟨rfl, rfl⟩
  · rintro ⟨rfl, rfl⟩
    rfl

theorem set_eq_ok : (set s1 : EStateM ε σ PUnit) s = .ok u s' ↔ s1 = s' := by
  constructor
  · intro h
    cases h
    rfl
  · rintro rfl
    rfl

theorem modify_eq_ok {f : σ → σ} : (modify f : EStateM ε σ PUnit) s = .ok u s' ↔ f s = s' := by
  constructor
  · intro h
    cases h
    rfl
  · rintro rfl
    rfl

/-- What follows on a check that throws is done only if the check passes. -/
theorem unless_eq_ok {test : Prop} [Decidable test] {x : EStateM ε σ β} :
    (if test then throw e >>= f else x) s = .ok b s' ↔ ¬test ∧ x s = .ok b s' := by
  by_cases h : test
  · rw [if_pos h]
    exact ⟨by rintro ⟨⟩, fun h' => (h'.1 h).elim⟩
  · rw [if_neg h, and_iff_right h]

theorem mapM_nil_eq_ok : ([].mapM f) s = .ok bs s' ↔ [] = bs ∧ s = s' := by
  rw [List.mapM_nil, pure_eq_ok]

theorem mapM_cons_eq_ok {x : α} :
    ((x :: xs).mapM f) s = .ok bs s' ↔
      ∃ b s1 rest, f x s = .ok b s1 ∧ (xs.mapM f) s1 = .ok rest s' ∧ b :: rest = bs := by
  rw [List.mapM_cons]
  simp only [bind_eq_ok, pure_eq_ok]
  constructor
  · rintro ⟨b, s1, hb, rest, _, hrest, rfl, rfl⟩
    exact ⟨b, s1, rest, hb, hrest, rfl⟩
  · rintro ⟨b, s1, rest, hb, hrest, rfl⟩
    exact ⟨b, s1, hb, rest, s', hrest, rfl, rfl⟩

theorem forM_nil_eq_ok {f : α → EStateM ε σ PUnit} :
    (([] : List α).forM f) s = .ok u s' ↔ s = s' := by
  show (pure PUnit.unit : EStateM ε σ PUnit) s = _ ↔ _
  rw [pure_eq_ok]
  exact ⟨fun h => h.2, fun h => ⟨rfl, h⟩⟩

theorem forM_cons_eq_ok {f : α → EStateM ε σ PUnit} {x : α} :
    ((x :: xs).forM f) s = .ok u s' ↔ ∃ s1, f x s = .ok u s1 ∧ (xs.forM f) s1 = .ok u s' := by
  show (f x >>= fun _ => xs.forM f) s = _ ↔ _
  rw [bind_eq_ok]
  exact ⟨fun ⟨_, s1, hx, hxs⟩ => ⟨s1, hx, hxs⟩, fun ⟨s1, hx, hxs⟩ => ⟨u, s1, hx, hxs⟩⟩

end Step

/-! ## Lowering -/

namespace Lower

variable {c c' : Context} {a : α}

theorem check_eq_ok {f : Program → Checked α} :
    check f c = .ok a c' ↔ f c.program = .ok a ∧ c = c' := by
  unfold check
  cases f c.program with
  | ok b => simp
  | error e => simp

theorem inspect_eq_ok {f : Program → Scope → Checked α} :
    inspect f c = .ok a c' ↔ f c.program c.scope = .ok a ∧ c = c' := by
  unfold inspect
  cases f c.program c.scope with
  | ok b => simp
  | error e => simp

theorem build_eq_ok {act : Build α} :
    build act c = .ok a c' ↔
      ∃ program, act c.program = .ok a program ∧ { c with program } = c' := by
  unfold build
  cases act c.program with
  | ok b program =>
    constructor
    · intro h
      cases h
      exact ⟨program, rfl, rfl⟩
    · rintro ⟨program', h, rfl⟩
      cases h
      rfl
  | error e program => simp

theorem bind_eq_ok {b : Binding} {u : Unit} :
    Lower.bind b c = .ok u c' ↔ ∃ scope, c.scope.bind b = .ok scope ∧ { c with scope } = c' := by
  unfold Lower.bind
  cases c.scope.bind b with
  | ok scope =>
    constructor
    · intro h
      cases h
      exact ⟨scope, rfl, rfl⟩
    · rintro ⟨scope', h, rfl⟩
      cases h
      rfl
  | error e => simp

theorem withFrame_eq_ok {frame : Frame} {act : Lower α} :
    withFrame frame act c = .ok a c' ↔
      ∃ c1, act { c with scope := frame :: c.scope } = .ok a c1 ∧
        { c1 with scope := c1.scope.tail } = c' := by
  unfold withFrame
  cases act { c with scope := frame :: c.scope } with
  | ok b c1 =>
    constructor
    · intro h
      cases h
      exact ⟨c1, rfl, rfl⟩
    · rintro ⟨c2, h, rfl⟩
      cases h
      rfl
  | error e c1 => simp

theorem inScope_eq_ok {scope : Scope} {act : Lower α} :
    inScope scope act c = .ok a c' ↔
      ∃ c1, act { c with scope } = .ok a c1 ∧ { c1 with scope := c.scope } = c' := by
  unfold inScope
  cases act { c with scope } with
  | ok b c1 =>
    constructor
    · intro h
      cases h
      exact ⟨c1, rfl, rfl⟩
    · rintro ⟨c2, h, rfl⟩
      cases h
      rfl
  | error e c1 => simp

end Lower

end Scribe.Lowering
