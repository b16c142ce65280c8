import Scribe.Proofs.Arguments
import Scribe.Proofs.SafeExec

/-!
# Sessions

A machine serves one run after another. Whatever the runs did and however they ended, between runs
the machine is at rest: its storage and its constants have their types (`Session.resting`). From
there a run of a lowered program gives a value of the type that its function returns, or stops for
a reason that a program can have.
-/

namespace Scribe.Machine

open Scribe.Core
open Scribe.Lowering

/-! ## Constants in their order -/

/-- The constants that have values are the first `k`, in their order. -/
def Leading (constants : List (ConstantId × Value)) (k : Nat) : Prop :=
  constants.map (·.1) = (List.range k).map ConstantId.mk

namespace Leading

variable {constants : List (ConstantId × Value)} {k : Nat} (h : Leading constants k)

include h

theorem length_eq : constants.length = k := by
  have hlength := congrArg List.length h
  rw [List.length_map, List.length_map, List.length_range] at hlength
  exact hlength

theorem mem_keys {id : ConstantId} : id ∈ constants.map (·.1) ↔ id.index < k := by
  rw [h, List.mem_map]
  constructor
  · rintro ⟨i, hi, rfl⟩
    exact List.mem_range.mp hi
  · intro hlt
    exact ⟨id.index, List.mem_range.mpr hlt, rfl⟩

theorem lookup {id : ConstantId} (hid : id.index < k) : ∃ v, constants.lookup id = some v :=
  Option.ne_none_iff_exists'.mp fun hnone => lookup_eq_none.mp hnone (h.mem_keys.mpr hid)

/-- The next constant, or one of those that have values, gets a value. -/
theorem insert {i : Nat} (hi : i ≤ k) (v : Value) :
    Leading (assocInsert ⟨i⟩ v constants) (max k (i + 1)) := by
  unfold Leading
  by_cases hlt : i < k
  · rw [keys_assocInsert_of_mem (h.mem_keys.mpr hlt), Nat.max_eq_left hlt]
    exact h
  · have hik : i = k := by omega
    subst hik
    have hnot : (⟨i⟩ : ConstantId) ∉ constants.map (·.1) := fun hmem => hlt (h.mem_keys.mp hmem)
    rw [assocInsert_of_notMem hnot, Nat.max_eq_right (Nat.le_succ i), List.range_succ,
      List.map_append, List.map_append, h]
    rfl

end Leading

/-- A machine between runs. -/
structure Resting (p : Program) (τ : Typing) (s : State) : Prop where
  heap : HeapTyped p τ s.heap
  constants : ConstantsTyped p τ s.constants
  leading : ∃ k, k ≤ p.constants.size ∧ Leading s.constants k
  frames : s.frames = []

/-! ## The values of constants -/

/-- A machine that evaluates its constants and has come to the one with index `i`. -/
structure Initializing (p : Program) (w : World) (i : Nat) (s : State) : Prop where
  ready : Ready p (.ofConstant ⟨i⟩) w s
  leading : ∃ k, i ≤ k ∧ k ≤ p.constants.size ∧ Leading s.constants k
  frames : s.frames.tail = []

variable {p : Program} {s : State} {τ : Typing}

theorem constants_of_drop {i : Nat} {c : Constant} {rest : List Constant}
    (h : p.constants.toList.drop i = c :: rest) :
    p.getConstant? ⟨i⟩ = some c ∧ p.constants.toList.drop (i + 1) = rest := by
  constructor
  · show p.constants[i]? = some c
    rw [← Array.getElem?_toList, ← List.head?_drop, h]
    rfl
  · rw [← List.tail_drop, h]
    rfl

section Init

variable {p : Program}

/-- The constant with index `i` gets its value. If it had one from an attempt before, that value is
replaced. -/
theorem Initializing.bind {w : World} {i : Nat} {s : State} (hs : Initializing p w i s)
    {c : Constant} (hc : p.getConstant? ⟨i⟩ = some c) {v : Value}
    (hv : HasType w.inner v c.type) :
    Initializing p w (i + 1) { s with constants := assocInsert ⟨i⟩ v s.constants } := by
  obtain ⟨k, hik, hk, hleading⟩ := hs.leading
  have hsize : i < p.constants.size := (Array.getElem?_eq_some_iff.mp hc).1
  refine ⟨⟨hs.ready.heap, ?_, ?_, hs.ready.frame, hs.ready.plain⟩,
    ⟨max k (i + 1), by omega, by omega, hleading.insert hik v⟩, hs.frames⟩
  · intro id u hu
    have hu : (assocInsert ⟨i⟩ v s.constants).lookup id = some u := hu
    rw [lookup_assocInsert] at hu
    by_cases hid : id = ⟨i⟩
    · rw [if_pos hid] at hu
      cases hu
      rw [hid]
      exact ⟨c, hc, hv.mono w.le⟩
    · rw [if_neg hid] at hu
      exact hs.ready.stored id u hu
  · intro id c' hc' hlt
    show ∃ u, (assocInsert ⟨i⟩ v s.constants).lookup id = some u ∧ _
    rw [lookup_assocInsert]
    by_cases hid : id = ⟨i⟩
    · subst hid
      cases hc.symm.trans hc'
      exact ⟨v, if_pos rfl, hv⟩
    · have hne : id.index ≠ i := fun heq => hid (congrArg ConstantId.mk heq)
      rw [if_neg hid]
      refine hs.ready.constants hc' (.inl ?_)
      obtain hlt | hnone := hlt
      · have hlt : id.index < i + 1 := hlt
        show id.index < i
        omega
      · cases hnone

theorem Initializing.keeps {w w' : World} {i : Nat} {s s' : State} (hs : Initializing p w i s)
    (hk : Keeps p (.ofConstant ⟨i⟩) w s w' s') : Initializing p w' i s' := by
  refine ⟨hk.ready, ?_, hk.frames.trans hs.frames⟩
  rw [hk.constants]
  exact hs.leading

variable {ι : Type} {S : Setting p ι} (hp : p.Sound)
  (hvalues : ∀ id c, p.getConstant? id = some c → EvalSafe S (.ofConstant id) c.value)

include hp hvalues

theorem initConstant_ends {w : World} {k : Nat} {s : State} (hs : Initializing p w k s)
    {c : Constant} (hc : p.getConstant? ⟨k⟩ = some c) :
    Ends (fun i => initConstant (S.env i) ⟨k⟩ c) s
      (fun _ s' => ∃ w', w.Le w' ∧ Initializing p w' (k + 1) s')
      fun stop s' => stop.Allowed S.unfinished s'.heap ∧
        ∃ w' j, w.Le w' ∧ Initializing p w' j s' := by
  have heval := (hvalues _ c hc).safe w (hp.constants ⟨k⟩ c hc).2 s hs.ready
  refine (heval.imp (fun v s' h => h) fun stop s' h => ?_).bind fun v s' _ h => ?_
  · obtain ⟨hstop, w', hk⟩ := h
    exact ⟨hstop, w', k, hk.le, hs.keeps hk⟩
  · obtain ⟨w', hk, hv⟩ := h
    exact .ok (fun _ => rfl) ⟨w', hk.le, (hs.keeps hk).bind hc hv⟩

/-- Constants are evaluated one after the other, each with the ones before it. -/
theorem initFrom_ends {cs : List Constant} {k : Nat} (hcs : p.constants.toList.drop k = cs)
    {w : World} {s : State} (hs : Initializing p w k s) :
    Ends (fun i => initFrom (S.env i) k cs) s
      (fun _ s' => ∃ w', w.Le w' ∧ Initializing p w' (k + cs.length) s')
      fun stop s' => stop.Allowed S.unfinished s'.heap ∧
        ∃ w' j, w.Le w' ∧ Initializing p w' j s' := by
  induction cs generalizing k w s with
  | nil => exact .ok (fun _ => rfl) ⟨w, .refl w, hs⟩
  | cons c rest ih =>
    obtain ⟨hc, hrest⟩ := constants_of_drop hcs
    have hlength : k + 1 + rest.length = k + (c :: rest).length := by
      rw [List.length_cons]
      omega
    refine (initConstant_ends hp hvalues hs hc).bind fun _ s1 _ h => ?_
    obtain ⟨w1, hle1, hs1⟩ := h
    refine (ih hrest hs1).imp (fun _ s2 h => ?_) fun stop s2 h => ?_
    · obtain ⟨w2, hle2, hs2⟩ := h
      rw [hlength] at hs2
      exact ⟨w2, hle1.trans hle2, hs2⟩
    · obtain ⟨hstop, w2, j, hle2, hs2⟩ := h
      exact ⟨hstop, w2, j, hle1.trans hle2, hs2⟩

end Init

/-- A machine at rest has no frames when it starts on its constants, and none when it is done. -/
theorem Resting.initializing (hs : Resting p τ s) :
    Initializing p ⟨{}, τ, τ.empty_le⟩ 0 { s with frames := {} :: s.frames } := by
  obtain ⟨k, hk, hleading⟩ := hs.leading
  -- the first constant can reach nothing, so the inner typing is empty
  refine ⟨⟨⟨.empty p s.heap, hs.heap⟩, hs.constants, ?_, ⟨{}, s.frames, rfl, .empty p {}⟩,
    fun _ _ => rfl⟩, ⟨k, Nat.zero_le k, hk, hleading⟩, hs.frames⟩
  rintro id c _ (hlt | hsome)
  · exact (Nat.not_lt_zero _ hlt).elim
  · cases hsome

theorem Initializing.resting {w : World} {i : Nat} (hs : Initializing p w i s) :
    Resting p w.outer { s with frames := s.frames.tail } := by
  obtain ⟨k, _, hk, hleading⟩ := hs.leading
  exact ⟨hs.ready.heap.outer, hs.ready.stored, ⟨k, hk, hleading⟩, hs.frames⟩

/-- After the constants have been evaluated all of them have values. -/
theorem initConstants_ends {ι : Type} {S : Setting p ι} (hp : p.Sound)
    (hvalues : ∀ id c, p.getConstant? id = some c → EvalSafe S (.ofConstant id) c.value)
    (hs : Resting p τ s) :
    Ends (fun i => initConstants (S.env i)) s
      (fun _ s' => ∃ τ' : Typing, τ.Le τ' ∧ Resting p τ' s' ∧
        Leading s'.constants p.constants.size)
      fun stop s' => stop.Allowed S.unfinished s'.heap ∧
        ∃ τ' : Typing, τ.Le τ' ∧ Resting p τ' s' := by
  have hinit (i : ι) : initConstants (S.env i) s =
      (if s.constants.length = p.constants.size then pure () else
        Exec.withFrame {} (initFrom (S.env i) 0 p.constants.toList) : Exec Unit) s := by
    show (if s.constants.length = (S.env i).program.constants.size then _ else _ : Exec Unit) s = _
    rw [S.program]
  by_cases hdone : s.constants.length = p.constants.size
  · -- nothing is left to do, since an earlier run got through all constants
    obtain ⟨k, hk, hleading⟩ := hs.leading
    refine .ok (fun i => (hinit i).trans (by rw [if_pos hdone]; rfl)) ⟨τ, .refl τ, hs, ?_⟩
    rw [← hdone, hleading.length_eq]
    exact hleading
  · -- a run that stopped early may have left values; they are replaced from the first one on
    have hfrom := initFrom_ends hp hvalues (List.drop_zero (l := p.constants.toList))
      hs.initializing
    refine (Ends.withFrame (hfrom.imp (fun _ s' h => ?_) fun stop s' h => ?_)).of_eq
      fun i => (hinit i).trans (by rw [if_neg hdone])
    · obtain ⟨w', hle, hs'⟩ := h
      refine ⟨w'.outer, hle.outer, hs'.resting, ?_⟩
      obtain ⟨k, hlow, hhigh, hleading⟩ := hs'.leading
      have hk : k = p.constants.size := by
        rw [Array.length_toList] at hlow
        omega
      rw [← hk]
      exact hleading
    · obtain ⟨hstop, w', j, hle, hs'⟩ := h
      exact ⟨hstop, w'.outer, hle.outer, hs'.resting⟩

/-- A machine at rest can run bodies once all its constants have values. -/
theorem Resting.settled (hs : Resting p τ s) (hall : Leading s.constants p.constants.size) :
    Settled p ⟨τ, τ, .refl τ⟩ s := by
  refine ⟨⟨hs.heap, hs.heap⟩, hs.constants, ?_⟩
  intro id c hc
  obtain ⟨v, hv⟩ := hall.lookup (Array.getElem?_eq_some_iff.mp hc).1
  obtain ⟨c', hc', ht⟩ := hs.constants id v hv
  cases hc.symm.trans hc'
  exact ⟨v, hv, ht⟩

theorem Returns.resting {s s' : State} {w w' : World} (hr : Returns p w s w' s')
    (hs : Resting p τ s) : Resting p w'.outer s' := by
  refine ⟨hr.settled.heap.outer, hr.settled.stored, ?_, hr.frames.trans hs.frames⟩
  rw [hr.constants]
  exact hs.leading

/-! ## Calls from outside -/

/-- A value that was read at a type, as its reader holds it. -/
abbrev Given := Value × Ty

/-- A call of a free function with arguments that were read at the types of its parameters. The same
value may be given more than once. -/
structure Call (p : Program) (given : List Given) where
  entry : String
  id : FunctionId
  function : Function
  arguments : List Value
  fuel : Nat
  named : p.function? entry = some id
  found : p.getFunction? id = some function
  drawn : List.Forall₂ (fun v q => (v, q.type) ∈ given) arguments function.parameters

section Calls

variable {p : Program} {given : List Given} (c : Call p given)

def Call.run : Exec Value :=
  Machine.run p c.fuel c.entry c.arguments

/-- A call with other fuel. -/
def Call.withFuel (fuel : Nat) : Call p given :=
  { c with fuel }

/-- A call stops because an argument does not fit its parameter. -/
def Call.Rejected (s : State) (stop : Stop) : Prop :=
  ∃ f, stop = .fault f ∧ checkArguments p s.heap c.function.parameters c.arguments = .error f

end Calls

/-- The state that a computation leaves behind, however it ends. -/
def finalState {α : Type} : EStateM.Result Stop State α → State
  | .ok _ s => s
  | .error _ s => s

/-- A machine with a datum in new storage. -/
def State.read (s : State) (d : Datum) : State :=
  { s with heap := (d.store s.heap).2 }

/-- The states of a machine that has served some calls, with the values that were read before the
last of them and since. Calls may be given all of these. -/
inductive Session (p : Program) : State → List Given → List Given → Prop where
  | start : Session p {} [] []
  | read {s : State} {old new : List Given} (h : Session p s old new) {j : Json} {t : Ty} {d : Datum}
      (hread : Datum.ofJson p j t = .ok d) :
      Session p (s.read d) old (new ++ [((d.store s.heap).1, t)])
  | call {s : State} {old new : List Given} (h : Session p s old new) (c : Call p (old ++ new)) :
      Session p (finalState (c.run s)) (old ++ new) []

section Run

variable {p : Program}

theorem EnvSafe.constants {env : Env} (henv : EnvSafe p env) (hp : p.Sound) (id : ConstantId)
    (c : Constant) (hc : p.getConstant? id = some c) :
    EvalSafe (henv.setting hp) (.ofConstant id) c.value := by
  have hsound := (hp.constants id c hc).1
  exact eval_safe hsound (hsound.imp fun _ => henv.serves hp)

variable {s : State}

section Check

variable {fuel : Nat} {entry : String} {id : FunctionId} {f : Function} {arguments : List Value}
  (hnamed : p.function? entry = some id) (hfound : p.getFunction? id = some f)
  (hlength : f.parameters.length = arguments.length)

include hnamed hfound hlength

/-- A run that names its function and has the right number of arguments gets as far as the check. -/
theorem run_eq_check : Machine.run p fuel entry arguments s =
    (Exec.ofExcept (checkArguments p s.heap f.parameters arguments) >>= fun _ =>
      initConstants (.ofFuel p fuel) >>= fun _ =>
        callFunction (.ofFuel p fuel) id none arguments) s := by
  unfold Machine.run
  rw [hnamed]
  dsimp only
  rw [hfound]
  show (if f.parameters.length = arguments.length then _ else _ : Exec Value) s = _
  rw [if_pos hlength]
  rfl

/-- A run that names its function and has fitting arguments gets as far as the constants. -/
theorem run_eq (hcheck : checkArguments p s.heap f.parameters arguments = .ok ()) :
    Machine.run p fuel entry arguments s = (initConstants (.ofFuel p fuel) >>= fun _ =>
      callFunction (.ofFuel p fuel) id none arguments) s := by
  rw [run_eq_check hnamed hfound hlength, hcheck]
  rfl

end Check

section

variable {given : List Given} (c : Call p given)

/-- A free function belongs to no model, so it needs no receiver. -/
theorem Call.owner (hp : p.Indexed) : c.function.owner = none := by
  obtain ⟨g, hg, howner, _⟩ := hp.function?_eq_some.mp c.named
  cases c.found.symm.trans hg
  exact howner

theorem Call.typed {τ : Typing} (hgiven : ∀ x ∈ given, HasType τ x.1 x.2) :
    AllTyped τ c.arguments (c.function.parameters.map (·.type)) := by
  rw [AllTyped, List.forall₂_map_right_iff]
  exact c.drawn.imp fun v q hmem => hgiven _ hmem

/-- A call, once it has passed the check, gives a value of the type that its function returns. -/
theorem Call.ends {ι : Type} {S : Setting p ι} (hp : p.Sound)
    (hvalues : ∀ id c, p.getConstant? id = some c → EvalSafe S (.ofConstant id) c.value)
    (hfunction : FunctionSafe S c.id) {τ : Typing} (hs : Resting p τ s)
    (hgiven : ∀ x ∈ given, HasType τ x.1 x.2) :
    Ends (fun i => initConstants (S.env i) >>= fun _ =>
        callFunction (S.env i) c.id none c.arguments) s
      (fun v s' => ∃ τ' : Typing, τ.Le τ' ∧ Resting p τ' s' ∧ HasType τ' v c.function.returnType)
      fun stop s' => stop.Allowed S.unfinished s'.heap ∧
        ∃ τ' : Typing, τ.Le τ' ∧ Resting p τ' s' := by
  refine (initConstants_ends hp hvalues hs).bind fun _ s1 _ h => ?_
  obtain ⟨τ1, hle1, hs1, hall⟩ := h
  have hcall : Calls S.unfinished p ⟨τ1, τ1, .refl τ1⟩
      (fun i => callFunction (S.env i) c.id none c.arguments)
      fun w' v => HasType w'.inner v c.function.returnType := by
    refine hfunction c.found (fun model hmodel => ?_) ((c.typed hgiven).mono hle1)
    rw [c.owner hp.indexed] at hmodel
    cases hmodel
  refine (hcall s1 (hs1.settled hall)).imp (fun v s2 h => ?_) fun stop s2 h => ?_
  · obtain ⟨w2, hr, hv⟩ := h
    exact ⟨w2.outer, hle1.trans hr.le.outer, hr.resting hs1, hv.mono w2.le⟩
  · obtain ⟨hstop, w2, hr⟩ := h
    exact ⟨hstop, w2.outer, hle1.trans hr.le.outer, hr.resting hs1⟩

/-- A call ends with a value of its type, for a reason that a program can have, or because it is
rejected. -/
theorem Call.run_ends {ι : Type} {S : Setting p ι} (hp : p.Sound)
    (hvalues : ∀ id c, p.getConstant? id = some c → EvalSafe S (.ofConstant id) c.value)
    (hfunction : FunctionSafe S c.id) {fuel : ι → Nat} (hfuel : ∀ i, S.env i = .ofFuel p (fuel i))
    {τ : Typing} (hs : Resting p τ s) (hgiven : ∀ x ∈ given, HasType τ x.1 x.2) :
    Ends (fun i => (c.withFuel (fuel i)).run) s
      (fun v s' => ∃ τ' : Typing, τ.Le τ' ∧ Resting p τ' s' ∧ HasType τ' v c.function.returnType)
      fun stop s' => (stop.Allowed S.unfinished s'.heap ∨ c.Rejected s stop) ∧
        ∃ τ' : Typing, τ.Le τ' ∧ Resting p τ' s' := by
  have hlength := c.drawn.length_eq.symm
  cases hcheck : checkArguments p s.heap c.function.parameters c.arguments with
  | ok =>
    refine ((c.ends hp hvalues hfunction hs hgiven).imp (fun _ _ h => h)
      fun _ _ h => ⟨.inl h.1, h.2⟩).of_eq fun i => ?_
    rw [hfuel]
    exact run_eq c.named c.found hlength hcheck
  | error f =>
    refine .error (fun i => ?_) ⟨.inr ⟨f, rfl, hcheck⟩, τ, .refl τ, hs⟩
    refine (run_eq_check c.named c.found hlength).trans ?_
    rw [hcheck]
    rfl

end

/-- A machine at rest, and the values that its users hold. Those that were read since the last call
are as they were read. -/
structure Serving (p : Program) (τ : Typing) (s : State) (old new : List Given) : Prop where
  resting : Resting p τ s
  typed : ∀ x ∈ old ++ new, HasType τ x.1 x.2
  unchanged : ∀ x ∈ new, ∃ y : Spelled, y.value = x.1 ∧ s.heap.Spells y ∧ y.datum.Typed p x.2

variable {τ : Typing} {old new : List Given}

theorem Serving.typed_old (h : Serving p τ s old new) (x : Given) (hx : x ∈ old) :
    HasType τ x.1 x.2 :=
  h.typed x (List.mem_append_left new hx)

theorem Serving.read (h : Serving p τ s old new) {d : Datum} {t : Ty} (hd : d.Typed p t) :
    ∃ τ', Serving p τ' (s.read d) old (new ++ [((d.store s.heap).1, t)]) := by
  have hworld : World.Types p ⟨τ, τ, .refl τ⟩ s.heap := ⟨h.resting.heap, h.resting.heap⟩
  obtain ⟨w, hle, hw, htyped⟩ := hd.storable _ _ hworld
  obtain ⟨cells, hspells, hfresh⟩ := d.store_laid s.heap
  refine ⟨w.outer, ⟨hw.outer, h.resting.constants.mono hle.outer, h.resting.leading,
    h.resting.frames⟩, ?_, ?_⟩
  · rw [← List.append_assoc]
    refine List.forall_mem_append.mpr ⟨fun x hx => (h.typed x hx).mono hle.outer, ?_⟩
    exact List.forall_mem_singleton.mpr (htyped.mono w.le)
  · refine List.forall_mem_append.mpr ⟨fun x hx => ?_, ?_⟩
    · obtain ⟨y, hvalue, hy, htyped⟩ := h.unchanged x hx
      exact ⟨y, hvalue, hy.mono hfresh.grows, htyped⟩
    · exact List.forall_mem_singleton.mpr ⟨_, rfl, hspells, hd⟩

/-- With any fuel, a run ends with a value of its type, for a reason that a program can have, or
because it is rejected. -/
theorem Serving.run_ends (h : Serving p τ s old new) (hp : p.Sound) (c : Call p (old ++ new)) :
    Ends (fun _ : Unit => c.run) s
      (fun v s' => ∃ τ', Serving p τ' s' (old ++ new) [] ∧ HasType τ' v c.function.returnType)
      fun stop s' => (stop.Allowed Unfinished s'.heap ∨ c.Rejected s stop) ∧
        ∃ τ', Serving p τ' s' (old ++ new) [] := by
  have henv := ofFuel_safe hp c.fuel
  have hends := c.run_ends hp (henv.constants hp) (henv.function hp c.id) (fun _ => rfl) h.resting
    h.typed
  have hserving {τ' : Typing} {s' : State} (hle : τ.Le τ') (hs' : Resting p τ' s') :
      Serving p τ' s' (old ++ new) [] := by
    refine ⟨hs', ?_, List.forall_mem_nil _⟩
    rw [List.append_nil]
    exact fun x hx => (h.typed x hx).mono hle
  refine hends.imp (fun v s' h => ?_) fun stop s' h => ?_
  · obtain ⟨τ', hle, hs', hv⟩ := h
    exact ⟨τ', hserving hle hs', hv⟩
  · obtain ⟨hstop, τ', hle, hs'⟩ := h
    exact ⟨hstop, τ', hserving hle hs'⟩

/-- Between calls the machine is at rest. -/
theorem Session.serving (hp : p.Sound) (hs : Session p s old new) :
    ∃ τ, Serving p τ s old new := by
  induction hs with
  | start =>
    exact ⟨{}, ⟨.empty p {}, by rintro _ _ ⟨⟩, ⟨0, Nat.zero_le _, rfl⟩, rfl⟩,
      List.forall_mem_nil _, List.forall_mem_nil _⟩
  | read _ hread ih =>
    obtain ⟨τ, hτ⟩ := ih
    exact hτ.read (Datum.ofJson_typed _ hread)
  | @call s _ _ _ c ih =>
    obtain ⟨τ, hτ⟩ := ih
    have hends := hτ.run_ends hp c
    cases hrun : c.run s with
    | ok v s' =>
      obtain ⟨τ', hs', _⟩ := hends.of_ok () hrun
      exact ⟨τ', hs'⟩
    | error stop s' => exact (hends.of_error () hrun).2

/-- A call with arguments that were read since the last call is not rejected. -/
theorem Serving.not_rejected (h : Serving p τ s old new) (c : Call p (old ++ new))
    (hnew : List.Forall₂ (fun v q => (v, q.type) ∈ new) c.arguments c.function.parameters)
    (stop : Stop) : ¬c.Rejected s stop := by
  rintro ⟨f, _, hcheck⟩
  have hok := checkArguments_of_spells (hnew.imp fun v q hmem => h.unchanged _ hmem)
  cases hok.symm.trans hcheck

end Run

/-! ## Calls of a sample -/

theorem sampleFunction_isSome (i : Fin 2) : (sampleProgram.getFunction? ⟨i⟩).isSome = true := by
  match i with
  | 0 => cbv
  | 1 => cbv

/-- The last of the items that were read. -/
def lastOfNone : Call sampleProgram [(.list 0, .list (.model ⟨0⟩))] where
  entry := "last"
  id := ⟨0⟩
  function := (sampleProgram.getFunction? ⟨0⟩).get (sampleFunction_isSome 0)
  arguments := [.list 0]
  fuel := 8
  named := by cbv
  found := (Option.some_get _).symm
  drawn := by
    have hparameters : ((sampleProgram.getFunction? ⟨0⟩).get (sampleFunction_isSome 0)).parameters =
        [⟨"items", .list (.model ⟨0⟩)⟩] := by cbv
    rw [hparameters]
    exact .cons List.mem_cons_self .nil

/-- One item of size three. -/
def itemThree : Datum :=
  .list [.object ⟨0⟩ "Item" [.int 3, .null]]

theorem ofJson_itemThree : Datum.ofJson sampleProgram
    (.array [.object [("size", .number (.int 3)), ("next", .null)]]) (.list (.model ⟨0⟩)) =
      .ok itemThree := by
  cbv

theorem ofJson_three : Datum.ofJson sampleProgram (.number (.int 3)) .int = .ok (.int 3) := by
  cbv

theorem session_itemThree : Session sampleProgram (({} : State).read itemThree |>.read (.int 3)) []
    [(.list 0, .list (.model ⟨0⟩)), (.int 3, .int)] :=
  (Session.start.read ofJson_itemThree).read ofJson_three

theorem findFunction_parameters :
    ((sampleProgram.getFunction? ⟨1⟩).get (sampleFunction_isSome 1)).parameters =
      [⟨"items", .list (.model ⟨0⟩)⟩, ⟨"size", .int⟩] := by
  cbv

/-- The item of size three among those that were read. -/
def findThree : Call sampleProgram [(.list 0, .list (.model ⟨0⟩)), (.int 3, .int)] where
  entry := "find"
  id := ⟨1⟩
  function := (sampleProgram.getFunction? ⟨1⟩).get (sampleFunction_isSome 1)
  arguments := [.list 0, .int 3]
  fuel := 8
  named := by cbv
  found := (Option.some_get _).symm
  drawn := by
    rw [findFunction_parameters]
    exact .cons List.mem_cons_self (.cons (List.mem_cons_of_mem _ List.mem_cons_self) .nil)

/-! ## Lowered programs -/

section Lowered

variable {m : Syntax.Module} {limit : Option Nat} {p : Program}

/-- Whatever a machine has read and whatever calls it has served, the next call leaves storage and
constants that have their types, and so have all values that were read. If it gives a value, the
value has the type that the function returns, and is void exactly if that is `void`. No body that has
to give a value comes to its end without one, in whatever state and environment it is run. -/
theorem run_preserves_types (h : lower m limit = .ok p) {s : State} {old new : List Given}
    (hs : Session p s old new) (c : Call p (old ++ new)) :
    (∃ τ, HeapTyped p τ (finalState (c.run s)).heap ∧
      ConstantsTyped p τ (finalState (c.run s)).constants ∧
      (∀ x ∈ old ++ new, HasType τ x.1 x.2) ∧
      ∀ v s', c.run s = .ok v s' →
        HasType τ v c.function.returnType ∧ (v = .void ↔ c.function.returnType = .void)) ∧
    ∀ callable body t, p.body? callable = some body → p.callableReturnType? callable = some t →
      t ≠ .void → ∀ env σ σ', execBlock env body σ ≠ .ok .next σ' := by
  have hsound := lower_sound h
  constructor
  · obtain ⟨τ, hτ⟩ := hs.serving hsound
    have hends := hτ.run_ends hsound c
    cases hrun : c.run s with
    | ok v s' =>
      obtain ⟨τ', hs', hv⟩ := hends.of_ok () hrun
      refine ⟨τ', hs'.resting.heap, hs'.resting.constants, hs'.typed_old, ?_⟩
      rintro _ _ ⟨⟩
      exact ⟨hv, hv.void_iff⟩
    | error stop s' =>
      obtain ⟨_, τ', hs'⟩ := hends.of_error () hrun
      exact ⟨τ', hs'.resting.heap, hs'.resting.constants, hs'.typed_old, by rintro _ _ ⟨⟩⟩
  · intro callable body t hbody ht hvoid env σ σ'
    obtain ⟨t', ht', heq | hreturn⟩ := (hsound.bodies hbody).returns
    · cases ht.symm.trans ht'
      exact (hvoid heq).elim
    · exact execBlock_ne_next hreturn

/-- The list that the first call searched is given to a second call. -/
theorem findThree_preserves_types : ∃ s s',
    findThree.run (({} : State).read itemThree |>.read (.int 3)) = .ok (.object ⟨0⟩ 0) s ∧
    findThree.run s = .ok (.object ⟨0⟩ 0) s' ∧
    ∃ τ, HeapTyped sampleProgram τ s'.heap ∧ ConstantsTyped sampleProgram τ s'.constants ∧
      HasType τ (.object ⟨0⟩ 0) findThree.function.returnType := by
  have hfirst : ∃ s, findThree.run (({} : State).read itemThree |>.read (.int 3)) =
      .ok (.object ⟨0⟩ 0) s ∧ ∃ s', findThree.run s = .ok (.object ⟨0⟩ 0) s' :=
    ⟨_, by cbv, _, by cbv⟩
  obtain ⟨s, hfirst, s', hsecond⟩ := hfirst
  have hs : Session sampleProgram s [(.list 0, .list (.model ⟨0⟩)), (.int 3, .int)] [] := by
    have hs := session_itemThree.call findThree
    rw [hfirst] at hs
    exact hs
  obtain ⟨⟨τ, hheap, hconstants, _, hresult⟩, _⟩ :=
    run_preserves_types lower_sampleModule hs findThree
  rw [hsecond] at hheap hconstants
  exact ⟨s, s', hfirst, hsecond, τ, hheap, hconstants, (hresult _ s' hsecond).1⟩

/-- Whatever a machine has read and whatever calls it has served, the next call stops early only with
a fault that a program can have, because it takes longer than it was allowed to, or at a key that
contains itself and has no text. An argument is rejected only if a call has been made since it was
read. The one thing left out is a length of `2 ^ 63` or more, which is no integer. -/
theorem run_stops_as_documented (h : lower m limit = .ok p) {s : State} {old new : List Given}
    (hs : Session p s old new) (c : Call p (old ++ new)) {stop : Stop} {s' : State}
    (hrun : c.run s = .error stop s')
    (hlength : stop ≠ .fault (.invalidOperation .lengthOverflow)) :
    stop = .exhausted ∨ (∃ map key, stop = .endless map key ∧ s'.heap.ContainsItself key) ∨
      (∃ f, stop = .fault f ∧ f.Documented) ∨ c.Rejected s stop ∧
        ¬List.Forall₂ (fun v q => (v, q.type) ∈ new) c.arguments c.function.parameters := by
  have hsound := lower_sound h
  obtain ⟨τ, hτ⟩ := hs.serving hsound
  obtain ⟨haccepted, hunfinished⟩ | hrejected := ((hτ.run_ends hsound c).of_error () hrun).1
  · cases haccepted with
    | exhausted => exact .inl rfl
    | endless map key =>
      exact .inr (.inl ⟨map, key, rfl, hunfinished (by rintro _ ⟨⟩) map key rfl⟩)
    | fault hf => exact .inr (.inr (.inl ⟨_, rfl, hf⟩))
    | lengthOverflow => exact (hlength rfl).elim
  · exact .inr (.inr (.inr ⟨hrejected, fun hnew => hτ.not_rejected c hnew stop hrejected⟩))

theorem lastOfNone_stops_as_documented : ∃ s,
    lastOfNone.run (({} : State).read (.list [])) = .error (.fault .popFromEmptyList) s ∧
      ∃ f, Stop.fault .popFromEmptyList = .fault f ∧ f.Documented := by
  have hread : Datum.ofJson sampleProgram (.array []) (.list (.model ⟨0⟩)) = .ok (.list []) := by
    cbv
  have hrun : ∃ s, lastOfNone.run (({} : State).read (.list [])) =
      .error (.fault .popFromEmptyList) s := ⟨_, by cbv⟩
  obtain ⟨s, hrun⟩ := hrun
  refine ⟨s, hrun, ?_⟩
  obtain ⟨⟨⟩⟩ | ⟨_, _, ⟨⟩, _⟩ | hdocumented | ⟨_, hnot⟩ :=
    run_stops_as_documented lower_sampleModule (Session.start.read hread) lastOfNone hrun
      (by rintro ⟨⟩)
  · exact hdocumented
  · exact (hnot lastOfNone.drawn).elim

end Lowered

end Scribe.Machine
