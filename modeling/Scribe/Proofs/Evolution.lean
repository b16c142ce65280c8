import Scribe.Proofs.Congruence
import Scribe.Proofs.Sessions

/-!
# How states evolve

A relation between states that every step of the machine has, and that sequences inherit
(`Evolution`), holds between the state in which the machine begins and the one in which it ends,
whatever it does and however it ends. What only looks into storage and takes new storage needs less
of the relation (`Additive`).
-/

namespace Scribe.Machine

open Scribe.Core

/-- A computation leads from every state to a related one, however it ends. -/
def Leads (R : State → State → Prop) (α : Type) (act : Exec α) : Prop :=
  ∀ s, R s (finalState (act s))

/-- A relation between states that sequences inherit, and that new storage has. -/
structure Additive (R : State → State → Prop) : Prop where
  refl (s : State) : R s s
  trans {s1 s2 s3 : State} (h1 : R s1 s2) (h2 : R s2 s3) : R s1 s3
  alloc {f : Heap → Address × Heap} (hf : Allocation f) (s : State) :
    R s { s with heap := (f s.heap).2 }

/-- A relation between states that every step of the machine has, and that sequences inherit. -/
structure Evolution (R : State → State → Prop) : Prop extends Additive R where
  change {c : Cell} {f : Heap → Heap} (hf : Write c f) (s : State) :
    R s { s with heap := f s.heap }
  frames (s : State) (frames : List Frame) : R s { s with frames }

namespace Additive

variable {R : State → State → Prop} (h : Additive R)

include h

theorem bind {α β : Type} {act : Exec α} {f : α → Exec β} (hact : Leads R α act)
    (hf : ∀ a, Leads R β (f a)) : Leads R β (act >>= f) := by
  intro s
  have hs := hact s
  show R s (finalState (EStateM.bind act f s))
  unfold EStateM.bind
  cases hrun : act s with
  | ok a s' =>
    rw [hrun] at hs
    exact h.trans hs (hf a s')
  | error stop s' =>
    rw [hrun] at hs
    exact hs

theorem get_bind {α : Type} {f : State → Exec α} (hf : ∀ s, Leads R α (f s)) :
    Leads R α (get >>= f) :=
  h.bind (fun s => h.refl s) hf

theorem searching : Searching (Leads R) where
  pure _ s := h.refl s
  stop _ _ s := h.refl s
  exhausted s := h.refl s
  bind := h.bind
  look _ s := h.refl s

theorem observing : Observing (Leads R) where
  toSearching := h.searching
  alloc hf s := h.alloc hf s
  frame := by
    refine h.get_bind fun s => ?_
    split
    · exact h.searching.pure _
    · exact h.searching.invalid rfl

theorem reading : Reading (Leads R) where
  toLooking := h.searching.toLooking
  frame := h.observing.frame
  constant p id := by
    refine h.get_bind fun s => ?_
    split
    · exact h.searching.pure _
    · exact h.searching.bind (h.searching.ofOption _) fun c => h.searching.invalid rfl
  unset _ s := h.refl s

end Additive

namespace Evolution

variable {R : State → State → Prop} (h : Evolution R)

include h

theorem withFrame {α : Type} {act : Exec α} (hact : Leads R α act) (f : Frame) :
    Leads R α (Exec.withFrame f act) := by
  intro s
  have hs := h.trans (h.frames s (f :: s.frames)) (hact { s with frames := f :: s.frames })
  unfold Exec.withFrame
  cases hrun : act { s with frames := f :: s.frames } with
  | ok a s' | error stop s' =>
    rw [hrun] at hs
    exact h.trans hs (h.frames s' s'.frames.tail)

theorem closed : Closed (Leads R) where
  toObserving := h.observing
  constant := h.reading.constant
  unset := h.reading.unset
  change hf s := h.change hf s
  setFrame f s := by
    unfold Exec.setFrame
    cases hframes : s.frames with
    | nil => exact h.refl s
    | cons top rest => exact h.frames s (f top :: rest)

theorem calls (p : Program) (fuel : Nat) : (Env.ofFuel p fuel).Calls (Leads R) :=
  h.closed.calls (fun f _ hact => h.withFrame hact f) p fuel

section Runs

variable
  (hconstants : ∀ (s : State) (constants : List (ConstantId × Value)), R s { s with constants })

include hconstants

theorem initFrom {env : Env} (henv : env.Calls (Leads R)) (index : Nat)
    (constants : List Constant) : Leads R Unit (initFrom env index constants) := by
  induction constants generalizing index with
  | nil => exact h.searching.pure ()
  | cons c rest ih =>
    refine h.bind (h.bind (h.closed.eval henv c.value) fun v => ?_) fun _ => ih (index + 1)
    exact fun s => hconstants s _

theorem run (p : Program) (fuel : Nat) (entry : String) (arguments : List Value) :
    Leads R Value (run p fuel entry arguments) := by
  have hcalls := h.calls p fuel
  unfold Machine.run
  cases p.function? entry with
  | none => exact h.searching.fault rfl
  | some id =>
    refine h.bind (h.searching.ofOption _) fun f => ?_
    split
    · refine h.get_bind fun s =>
        h.bind (h.searching.ofExcept (checkArguments_plain _ _ _ _)) fun _ => ?_
      refine h.bind (h.get_bind fun s => ?_) fun _ => h.searching.callFunction hcalls id none _
      split
      · exact h.searching.pure ()
      · exact h.withFrame (h.initFrom hconstants hcalls 0 _) {}
    · exact h.searching.fault rfl

end Runs

end Evolution

end Scribe.Machine
