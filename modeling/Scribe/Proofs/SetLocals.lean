import Scribe.Proofs.Assigned
import Scribe.Proofs.Congruence
import Scribe.Proofs.Safety

/-!
# Computations and the locals that are set

A computation that begins with some locals set ends with some locals set, or stops. `Binds` says
which, and that it stops at an unset local only if the name of that local is excused. There is one
rule for each step of the machine, and so comparisons and hashes leave all locals alone if the calls
do that they make (`CallsBind`).
-/

namespace Scribe.Machine

open Scribe.Core

/-! ## Computations and the locals that are set -/

/-- A frame has values for some locals. -/
def Frame.Sets (f : Frame) (ids : List LocalId) : Prop :=
  ∀ id ∈ ids, ∃ v, f.locals.lookup id = some v

/-- The innermost frame has values for some locals. -/
def State.Sets (σ : State) (ids : List LocalId) : Prop :=
  ∀ id ∈ ids, ∃ f v, σ.frames.head? = some f ∧ f.locals.lookup id = some v

/-- An end with some locals set and the outer frames as they were, or a stop that is excused. -/
def Leaves {α : Type} (X : String → Prop) (ids : List LocalId) (outer : List Frame) :
    EStateM.Result Stop State α → Prop
  | .ok _ σ => σ.Sets ids ∧ σ.frames.tail = outer
  | .error stop _ => ∀ name, stop.unset? = some name → X name

/-- A computation that begins with `ids` set and ends with `ids'` set. Where it stops at an unset
local, the name of the local has `X`. -/
def Binds {α : Type} (X : String → Prop) (ids : List LocalId) (act : Exec α)
    (ids' : List LocalId) : Prop :=
  ∀ σ : State, σ.Sets ids → Leaves X ids' σ.frames.tail (act σ)

variable {σ : State} {ids : List LocalId} {f : Frame} {rest : List Frame}

theorem State.Sets.of_frames {σ' : State} (h : σ.Sets ids) (hframes : σ'.frames = σ.frames) :
    σ'.Sets ids := by
  intro id hid
  rw [hframes]
  exact h id hid

theorem State.Sets.cons (h : σ.Sets ids) (hframes : σ.frames = f :: rest) : f.Sets ids := by
  intro id hid
  obtain ⟨g, v, hg, hv⟩ := h id hid
  rw [hframes] at hg
  cases hg
  exact ⟨v, hv⟩

theorem Frame.Sets.state (h : f.Sets ids) (hframes : σ.frames = f :: rest) : σ.Sets ids := by
  intro id hid
  obtain ⟨v, hv⟩ := h id hid
  exact ⟨f, v, by rw [hframes]; rfl, hv⟩

namespace Binds

variable {α β : Type} {X : String → Prop} {ids ids' ids1 ids2 : List LocalId}

/-! ### Sequences and stops -/

theorem pure {a : α} : Binds X ids (Pure.pure a : Exec α) ids :=
  fun _ hσ => ⟨hσ, rfl⟩

variable {x : Exec α} {f : α → Exec β}

theorem bind (hx : Binds X ids x ids1) (hf : ∀ a, Binds X ids1 (f a) ids2) :
    Binds X ids (x >>= f) ids2 := by
  intro σ hσ
  have hleaves := hx σ hσ
  show Leaves X ids2 _ (EStateM.bind x f σ)
  unfold EStateM.bind
  cases hr : x σ with
  | ok a σ' =>
    rw [hr] at hleaves
    obtain ⟨hsets, houter⟩ := hleaves
    rw [← houter]
    exact hf a σ' hsets
  | error stop σ' =>
    rw [hr] at hleaves
    exact hleaves

theorem weaken (hx : Binds X ids x ids1) (hsub : ids2 ⊆ ids1) : Binds X ids x ids2 := by
  intro σ hσ
  have hleaves := hx σ hσ
  cases hr : x σ with
  | ok a σ' =>
    rw [hr] at hleaves
    exact ⟨fun id hid => hleaves.1 id (hsub hid), hleaves.2⟩
  | error stop σ' =>
    rw [hr] at hleaves
    exact hleaves

theorem throw {stop : Stop} (h : stop.unset? = none) :
    Binds X ids (MonadExcept.throw stop : Exec α) ids' := by
  intro σ _ name hname
  rw [h] at hname
  cases hname

theorem fault {f : Fault} (h : (Stop.fault f).unset? = none) :
    Binds X ids (Exec.fault f : Exec α) ids' :=
  throw h

theorem invalid {cause : OperationCause}
    (h : (Stop.fault (.invalidOperation cause)).unset? = none) :
    Binds X ids (Exec.invalid cause : Exec α) ids' :=
  throw h

theorem ite {c : Prop} [Decidable c] {y : Exec α} (hx : Binds X ids x ids')
    (hy : Binds X ids y ids') : Binds X ids (if c then x else y) ids' := by
  by_cases hc : c
  · rw [if_pos hc]
    exact hx
  · rw [if_neg hc]
    exact hy

theorem ofExcept {x : Except Fault α} (h : Plain x) : Binds X ids (Exec.ofExcept x) ids := by
  cases x with
  | ok a => exact pure
  | error f => exact throw h

theorem ofOption_bind {o : Option α} (hf : ∀ a, o = some a → Binds X ids (f a) ids') :
    Binds X ids (Exec.ofOption o >>= f) ids' := by
  cases o with
  | none => exact throw rfl
  | some a => exact hf a rfl

/-! ### Storage -/

theorem look {f : Heap → α} : Binds X ids (Exec.look f) ids :=
  fun _ hσ => ⟨hσ, rfl⟩

theorem change {f : Heap → Heap} : Binds X ids (Exec.change f) ids :=
  fun _ hσ => ⟨hσ, rfl⟩

theorem alloc {f : Heap → Address × Heap} : Binds X ids (Exec.alloc f) ids :=
  fun _ hσ => ⟨hσ, rfl⟩

theorem get : Binds X ids (MonadState.get : Exec State) ids :=
  fun _ hσ => ⟨hσ, rfl⟩

/-! ### Frames -/

theorem frame : Binds X ids Exec.frame ids := by
  unfold Exec.frame
  refine bind get fun σ => ?_
  cases σ.frames with
  | nil => exact invalid rfl
  | cons f rest => exact pure

theorem setFrame {g : Frame → Frame} (hg : ∀ f, f.Sets ids → (g f).Sets ids') :
    Binds X ids (Exec.setFrame g) ids' := by
  intro σ hσ
  unfold Exec.setFrame
  cases hframes : σ.frames with
  | nil => rintro name ⟨⟩
  | cons f rest => exact ⟨(hg f (hσ.cons hframes)).state rfl, rfl⟩

theorem setLocal (id : LocalId) (v : Value) :
    Binds X ids (Exec.setLocal id v) (ids ++ [id]) := by
  refine setFrame fun f hf id' hid' => ?_
  rw [lookup_assocInsert]
  by_cases h : id' = id
  · rw [if_pos h]
    exact ⟨v, rfl⟩
  · rw [if_neg h]
    rcases List.mem_append.mp hid' with hid' | hid'
    · exact hf id' hid'
    · exact absurd (List.mem_singleton.mp hid') h

/-- A call starts with the locals of its own frame and gives the frames back as they were. -/
theorem withFrame {f : Frame} (hf : f.Sets ids1) (hx : Binds X ids1 x ids2) :
    Binds X ids (Exec.withFrame f x) ids := by
  intro σ hσ
  have hleaves := hx { σ with frames := f :: σ.frames } (hf.state rfl)
  unfold Exec.withFrame
  cases hr : x { σ with frames := f :: σ.frames } with
  | ok a σ' =>
    rw [hr] at hleaves
    have hframes : σ'.frames.tail = σ.frames := hleaves.2
    exact ⟨hσ.of_frames hframes, congrArg List.tail hframes⟩
  | error stop σ' =>
    rw [hr] at hleaves
    exact hleaves

theorem observing (X : String → Prop) (ids : List LocalId) :
    Observing fun _ act => Binds X ids act ids where
  pure _ := pure
  stop hset _ := throw hset
  exhausted := throw rfl
  bind := bind
  look _ := look
  alloc _ := alloc
  frame := frame

end Binds

/-! ## Calls -/

/-- Calls start with what an equality compares with, and leave the locals around them alone. -/
def CallsBind (X : String → Prop) (env : Env) : Prop :=
  ∀ {callable body}, env.program.body? callable = some body →
    ∀ {f}, f.Sets (env.program.other? callable).toList → ∀ name ids,
      Binds X ids (env.invoke name body f) ids

section Calls

variable {X : String → Prop} {env : Env} (henv : CallsBind X env)
include henv

theorem CallsBind.compares (ids : List LocalId) :
    env.Compares (fun _ act _ => Binds X ids act ids) env where
  program := rfl
  equality {id m e} hm he left right := by
    have hequality : (env.program.getModel? id).bind (·.equality) = some e := by
      rw [hm]
      exact he
    have hbody : env.program.body? (.equality id) = some e.body := by
      rw [Program.body?, hequality]
      rfl
    refine henv hbody ?_ _ ids
    rw [Program.other?, hequality]
    -- the right operand is what the equality compares with
    exact List.forall_mem_singleton.mpr ⟨right, List.lookup_cons_self⟩
  hashing {id m body} hm hb v := by
    have hbody : env.program.body? (.hashing id) = some body := by
      rw [Program.body?, hm]
      exact hb
    exact henv hbody (List.forall_mem_nil _) _ ids
  fuel := .inl rfl

theorem callFunction_binds {ids : List LocalId} (id : FunctionId) (receiver : Option Value)
    (arguments : List Value) : Binds X ids (callFunction env id receiver arguments) ids := by
  refine .ofOption_bind fun f hf => ?_
  have hbody : env.program.body? (.function id) = some f.body := by
    rw [Program.body?, hf]
    rfl
  exact henv hbody (List.forall_mem_nil _) _ _

end Calls

end Scribe.Machine
