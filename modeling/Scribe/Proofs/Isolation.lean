import Scribe.Proofs.Congruence
import Scribe.Proofs.Sessions

/-!
# Calls know nothing of their callers

What a call does inside its frame depends on that frame, on storage and on the constants, and
touches no frame below its own (`Confined`). The frame goes away when the call ends, in a value or a
stop. So the call as a whole neither reads nor changes the frames of its callers (`Isolated`), and
neither does a run: runs may follow each other on one machine, whichever of them fail.
-/

namespace Scribe.Machine

open Scribe.Core
open Scribe.Lowering.Step (bind_of_ok bind_of_error)

/-- The end of a computation in a state: with a value, or with the reason to stop. -/
def endIn {α : Type} (s : State) : Except Stop α → EStateM.Result Stop State α
  | .ok a => .ok a s
  | .error stop => .error stop s

/-- A computation that has the innermost frame to itself: whatever frames there are below, it ends
the same way and leaves them as they are. -/
def Confined (α : Type) (act : Exec α) : Prop :=
  ∀ (s : State) (own : Frame), ∃ (r : Except Stop α) (s' : State) (own' : Frame), ∀ below,
    act { s with frames := own :: below } = endIn { s' with frames := own' :: below } r

/-- A computation that has no use for frames: whatever frames there are, it ends the same way and
leaves them as they are. -/
def Isolated (α : Type) (act : Exec α) : Prop :=
  ∀ s : State, ∃ (r : Except Stop α) (s' : State), ∀ frames,
    act { s with frames } = endIn { s' with frames } r

/-! ## Steps -/

theorem isolated_searching : Searching Isolated where
  pure a s := ⟨.ok a, s, fun _ => rfl⟩
  stop {_ stop} _ _ s := ⟨.error stop, s, fun _ => rfl⟩
  exhausted s := ⟨.error .exhausted, s, fun _ => rfl⟩
  look f s := ⟨.ok (f s.heap), s, fun _ => rfl⟩
  bind hact hf s := by
    obtain ⟨r, s', h⟩ := hact s
    cases r with
    | error stop => exact ⟨.error stop, s', fun frames => bind_of_error (h frames)⟩
    | ok a =>
      obtain ⟨r', s'', h'⟩ := hf a s'
      exact ⟨r', s'', fun frames => (bind_of_ok (h frames)).trans (h' frames)⟩

variable {α : Type} {act : Exec α}

/-- A look at the state that does not depend on the frames. -/
theorem Isolated.get_bind {f : State → Exec α} (hf : ∀ s, Isolated α (f s))
    (hframes : ∀ s frames, f { s with frames } = f s) : Isolated α (get >>= f) := by
  intro s
  obtain ⟨r, s', h⟩ := hf s s
  refine ⟨r, s', fun frames => ?_⟩
  show f { s with frames } { s with frames } = _
  rw [hframes]
  exact h frames

theorem confined_bind {β : Type} {f : α → Exec β} (hact : Confined α act)
    (hf : ∀ a, Confined β (f a)) : Confined β (act >>= f) := by
  intro s own
  obtain ⟨r, s', own', h⟩ := hact s own
  cases r with
  | error stop => exact ⟨.error stop, s', own', fun below => bind_of_error (h below)⟩
  | ok a =>
    obtain ⟨r', s'', own'', h'⟩ := hf a s' own'
    exact ⟨r', s'', own'', fun below => (bind_of_ok (h below)).trans (h' below)⟩

theorem Isolated.confined (h : Isolated α act) : Confined α act := by
  intro s own
  obtain ⟨r, s', h⟩ := h s
  exact ⟨r, s', own, fun below => h (own :: below)⟩

theorem confined_constant (p : Program) (id : ConstantId) :
    Confined Value (readDefinition p (.constant id)) := by
  refine (Isolated.get_bind (fun s => ?_) fun _ _ => rfl).confined
  split
  · exact isolated_searching.pure _
  · exact isolated_searching.bind (isolated_searching.ofOption _) fun c =>
      isolated_searching.invalid rfl

theorem confined_closed : Closed Confined where
  pure a := (isolated_searching.pure a).confined
  stop hset hfuel := (isolated_searching.stop hset hfuel).confined
  exhausted := isolated_searching.exhausted.confined
  look f := (isolated_searching.look f).confined
  bind := confined_bind
  change {_ f} _ s own := ⟨.ok (), { s with heap := f s.heap }, own, fun _ => rfl⟩
  alloc {f} _ s own := ⟨.ok (f s.heap).1, { s with heap := (f s.heap).2 }, own, fun _ => rfl⟩
  constant := confined_constant
  unset name s own := ⟨.error (.fault (.invalidOperation (.localUnset name))), s, own, fun _ => rfl⟩
  frame s own := ⟨.ok own, s, own, fun _ => rfl⟩
  setFrame f s own := ⟨.ok (), s, f own, fun _ => rfl⟩

/-- What a computation does in a frame of its own concerns no other frame, however it ends. -/
theorem Confined.withFrame (h : Confined α act) (f : Frame) :
    Isolated α (Exec.withFrame f act) := by
  intro s
  obtain ⟨r, s', own, h⟩ := h s f
  refine ⟨r, s', fun frames => ?_⟩
  unfold Exec.withFrame
  dsimp only
  rw [h frames]
  cases r with
  | ok a => rfl
  | error stop => rfl

/-! ## Calls and runs -/

section Runs

variable (p : Program)

theorem invoke_isolated (fuel : Nat) : (Env.ofFuel p fuel).Calls Isolated := by
  cases fuel with
  | zero => exact fun name body frame => isolated_searching.exhausted
  | succ fuel =>
    intro name body frame
    -- deeper calls are confined as well, each with its own frame in front of this one
    have hcalls := confined_closed.calls (fun f _ hact => (hact.withFrame f).confined) p fuel
    refine isolated_searching.bind ((confined_closed.execBlock hcalls body).withFrame frame) ?_
    exact isolated_searching.flowResult name

theorem initFrom_confined {env : Env} (henv : env.Calls Confined) (index : Nat)
    (constants : List Constant) : Confined Unit (initFrom env index constants) := by
  induction constants generalizing index with
  | nil => exact confined_closed.pure ()
  | cons c rest ih =>
    refine confined_bind (confined_bind (confined_closed.eval henv c.value) fun v => ?_) fun _ =>
      ih (index + 1)
    exact fun s own => ⟨.ok (), { s with constants := assocInsert ⟨index⟩ v s.constants }, own,
      fun _ => rfl⟩

theorem initConstants_isolated (fuel : Nat) : Isolated Unit (initConstants (.ofFuel p fuel)) := by
  have hcalls : (Env.ofFuel p fuel).Calls Confined := fun name body frame =>
    (invoke_isolated p fuel name body frame).confined
  refine .get_bind (fun s => ?_) fun _ _ => rfl
  split
  · exact isolated_searching.pure ()
  · exact (initFrom_confined hcalls 0 _).withFrame {}

theorem run_isolated (fuel : Nat) (entry : String) (arguments : List Value) :
    Isolated Value (run p fuel entry arguments) := by
  unfold run
  cases p.function? entry with
  | none => exact isolated_searching.fault rfl
  | some id =>
    refine isolated_searching.bind (isolated_searching.ofOption _) fun f => ?_
    split
    · refine .get_bind (fun s => ?_) fun _ _ => rfl
      refine isolated_searching.bind (isolated_searching.ofExcept (checkArguments_plain _ _ _ _))
        fun _ => ?_
      refine isolated_searching.bind (initConstants_isolated p fuel) fun _ => ?_
      exact isolated_searching.callFunction (invoke_isolated p fuel) id none arguments
    · exact isolated_searching.fault rfl

/-- A request from outside: it puts its arguments into storage and names a function to be run. -/
structure Request where
  entry : String
  fuel : Nat
  store : Heap → List Value × Heap

/-- Serves a request. -/
def Request.serve (request : Request) : Exec Value := fun s =>
  let (arguments, heap) := request.store s.heap
  run p request.fuel request.entry arguments { s with heap }

/-- The machine after some requests, each served in the state that the one before it left behind. -/
def serveAll (requests : List Request) (s : State) : State :=
  requests.foldl (fun s request => finalState (request.serve p s)) s

theorem Request.serve_isolated (request : Request) : Isolated Value (request.serve p) := by
  intro s
  obtain ⟨r, s', h⟩ := run_isolated p request.fuel request.entry (request.store s.heap).1
    { s with heap := (request.store s.heap).2 }
  exact ⟨r, s', h⟩

theorem Isolated.frames_finalState {α : Type} {act : Exec α} (h : Isolated α act) (s : State) :
    (finalState (act s)).frames = s.frames := by
  obtain ⟨r, s', h⟩ := h s
  have hend : act s = endIn { s' with frames := s.frames } r := h s.frames
  rw [hend]
  cases r with
  | ok a => rfl
  | error stop => rfl

theorem frames_serveAll (requests : List Request) (s : State) :
    (serveAll p requests s).frames = s.frames := by
  induction requests generalizing s with
  | nil => rfl
  | cons request rest ih =>
    exact (ih _).trans ((request.serve_isolated p).frames_finalState s)

/-- Calls of functions and methods, and the comparisons and hashes that models define, end the same
way whatever frames their callers have, and leave these frames as they were. The same holds of runs
and of requests from outside; so after any requests, of which any may have failed, the next one
finds no frame. -/
theorem calls_isolated (fuel : Nat) :
    (∀ name body frame, Isolated Value (invoke p fuel name body frame)) ∧
    (∀ id receiver arguments,
      Isolated Value (callFunction (.ofFuel p fuel) id receiver arguments)) ∧
    (∀ depth left right, Isolated Bool (valuesEqual (.ofFuel p fuel) depth left right)) ∧
    (∀ depth v, Isolated Int64 (hashValue (.ofFuel p fuel) depth v)) ∧
    (∀ entry arguments, Isolated Value (run p fuel entry arguments)) ∧
    (∀ request : Request, Isolated Value (request.serve p)) ∧
    ∀ requests s, (serveAll p requests s).frames = s.frames := by
  have hcalls := invoke_isolated p fuel
  refine ⟨hcalls, ?_, ?_, ?_, run_isolated p fuel, ?_, frames_serveAll p⟩
  · exact isolated_searching.callFunction hcalls
  · exact isolated_searching.valuesEqual hcalls
  · exact isolated_searching.hashValue hcalls
  · exact fun request => request.serve_isolated p

end Runs

end Scribe.Machine
