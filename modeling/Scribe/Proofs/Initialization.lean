import Scribe.Proofs.Evolution
import Scribe.Proofs.Fuel
import Scribe.Proofs.History
import Scribe.Proofs.Isolation
import Scribe.Proofs.Reach
import Scribe.Proofs.Relocation
import Scribe.Proofs.Resolve

/-!
# Constants are evaluated once

The first run that gets through its checks evaluates the constants; if that fails, the next one
begins again with the first of them. It can tell no difference: what a constant comes to depends on
the constants before it, which have just been evaluated, and on nothing else in storage. So a
machine that fails to evaluate its constants fails again, for the same reason
(`InOrder.serve_stops`), and one that has evaluated them has the values of a new machine
(`InOrder.init_ok`).

That some code is not run is said by putting other code in its place (`invokeIf`): if the result is
the same whatever stands there, then it is not run.
-/

namespace Scribe.Lowering

open Scribe.Core

/-! ## Constant forms -/

section Forms

variable {p q : Program} {scope : Scope} {i : Nat}

theorem areConstantForms_iff {es : List Syntax.Expr} :
    areConstantForms es = true ↔ ∀ e ∈ es, isConstantForm e = true := by
  induction es with
  | nil => simp [areConstantForms]
  | cons e es ih => simp [areConstantForms, ih]

theorem areConstantEntries_iff {entries : List (Syntax.Expr × Syntax.Expr)} :
    areConstantEntries entries = true ↔
      ∀ x ∈ entries, isConstantForm x.1 = true ∧ isConstantForm x.2 = true := by
  induction entries with
  | nil => simp [areConstantEntries]
  | cons x entries ih => simp [areConstantEntries, ih]

/-- What a constant form becomes is made of literals and operators, and of the constants that are in
scope. -/
theorem Elab.frozen {e : Syntax.Expr} {e' : Expr} (h : Elab p scope e e')
    (hform : isConstantForm e = true) (hscope : e'.All (Expr.InScope q (.ofConstant ⟨i⟩))) :
    e'.All (Expr.Frozen i) := by
  induction e' using Expr.nodeInduction generalizing e with
  | h e' ih =>
  have hbelow {c : Expr} {e0 : Syntax.Expr} (hc : c ∈ e'.children) (he0 : Elab p scope e0 c)
      (hform0 : isConstantForm e0 = true) : c.All (Expr.Frozen i) :=
    ih c hc he0 hform0 (hscope.inner hc)
  cases h with
  | bool _ | int _ | rune _ | string _ | emptyList _ | emptySet _ | emptyMap _ _ =>
    exact .intro trivial (List.forall_mem_nil _)
  | list hes _ | set hes _ =>
    refine .intro trivial fun c hc => ?_
    obtain ⟨e0, hmem, he0⟩ := hes.exists_source hc
    exact hbelow hc he0 (areConstantForms_iff.mp hform e0 hmem)
  | map hentries _ _ =>
    refine .intro trivial fun c hc => ?_
    obtain ⟨x, hmem, he | he⟩ := hentries.exists_source hc
    · exact hbelow hc he (areConstantEntries_iff.mp hform x hmem).1
    · exact hbelow hc he (areConstantEntries_iff.mp hform x hmem).2
  | unary he _ _ =>
    exact .intro trivial (List.forall_mem_singleton.mpr (hbelow List.mem_cons_self he hform))
  | binary hl hr _ _ _ =>
    obtain ⟨hforml, hformr⟩ := Bool.and_eq_true_iff.mp hform
    exact .intro trivial (forall_mem_pair (hbelow List.mem_cons_self hl hforml)
      (hbelow (List.mem_cons_of_mem _ List.mem_cons_self) hr hformr))
  | nullLeft _ _ _ _ => cases hform
  | nullRight _ _ _ _ => cases (Bool.and_eq_true_iff.mp hform).2
  | @var name d t _ _ =>
    refine .intro ?_ (List.forall_mem_nil _)
    obtain ⟨hd, _⟩ := hscope.root
    cases d with
    | constant id => exact hd.1
    | argument _ _ => cases hd.1
    | field _ _ => cases hd.1
    | binding id => cases hd.1
  | _ => cases hform

theorem ConstantsOf.form {cs : List Syntax.Constant} {ks : List Constant}
    (h : ConstantsOf p cs ks) :
    ∀ k ∈ ks, ∃ p' e, isConstantForm e = true ∧ Elab p' [.program] e k.value := by
  induction h with
  | nil => exact List.forall_mem_nil _
  | cons _ _ hform hvalue _ _ _ ih => exact List.forall_mem_cons.mpr ⟨⟨_, _, hform, hvalue⟩, ih⟩

theorem lower_constantsFrozen {m : Syntax.Module} {limit : Option Nat}
    (h : lower m limit = .ok p) : p.ConstantsFrozen := by
  obtain ⟨_, ts, htraced⟩ := lower_traced h
  intro id k hk
  have hscope := ((lower_sound h).constants id k hk).1.imp fun e he => he.inScope
  rw [Program.getConstant?, htraced.constants_eq, List.getElem?_toArray] at hk
  obtain ⟨p', e, hform, hvalue⟩ := htraced.declares.constants.form k (List.mem_of_getElem? hk)
  exact hvalue.frozen hform hscope

end Forms

end Scribe.Lowering

namespace Scribe.Machine

open Scribe.Core Scribe.Lowering

/-! ## Calls leave constants as they are -/

/-- A computation that gives no constant another value, however it ends. -/
def KeepsConstants (α : Type) (act : Exec α) : Prop :=
  ∀ s, (finalState (act s)).constants = s.constants

theorem keepsConstants_evolution : Evolution fun s t => t.constants = s.constants where
  refl _ := rfl
  trans h1 h2 := h2.trans h1
  change _ _ := rfl
  alloc _ _ := rfl
  frames _ _ := rfl

theorem keepsConstants_closed : Closed KeepsConstants :=
  keepsConstants_evolution.closed

theorem ofFuel_keepsConstants (p : Program) (fuel : Nat) :
    (Env.ofFuel p fuel).Calls KeepsConstants :=
  keepsConstants_evolution.calls p fuel

/-! ## Evaluation in order -/

section Steps

variable {env : Env} {i : Nat} {c : Constant} {rest : List Constant} {s s' : State}

/-- A constant gets the value of its expression, then the others follow. -/
theorem initFrom_cons {v : Value} (h : eval env c.value s = .ok v s') :
    initFrom env i (c :: rest) s =
      initFrom env (i + 1) rest { s' with constants := assocInsert ⟨i⟩ v s'.constants } := by
  simp only [initFrom, initConstant, bind, EStateM.bind, h]
  rfl

theorem initFrom_cons_of_error {stop : Stop} (h : eval env c.value s = .error stop s') :
    initFrom env i (c :: rest) s = .error stop s' := by
  simp only [initFrom, initConstant, bind, EStateM.bind, h]

end Steps

section Order

variable {env : Env} (henv : env.Calls KeepsConstants)

include henv

variable {cs : List Constant} {s s' : State}

/-- The first constant gets a value, and nothing else about the constants has changed by then. -/
theorem initFrom_cons_ok {i : Nat} {c : Constant} (hrun : initFrom env i (c :: cs) s = .ok () s') :
    ∃ v s1, eval env c.value s = .ok v s1 ∧ s1.constants = s.constants ∧
      initFrom env (i + 1) cs { s1 with constants := assocInsert ⟨i⟩ v s1.constants } =
        .ok () s' := by
  have hkeeps := keepsConstants_closed.eval henv c.value s
  cases heval : eval env c.value s with
  | error stop s1 =>
    rw [initFrom_cons_of_error heval] at hrun
    cases hrun
  | ok v s1 =>
    rw [initFrom_cons heval] at hrun
    rw [heval] at hkeeps
    exact ⟨v, s1, rfl, hkeeps, hrun⟩

theorem initFrom_leading {i k : Nat} (hs : Leading s.constants k) (hik : i ≤ k)
    (hrun : initFrom env i cs s = .ok () s') : Leading s'.constants (max k (i + cs.length)) := by
  induction cs generalizing i k s with
  | nil =>
    cases hrun
    rw [List.length_nil, Nat.add_zero, Nat.max_eq_left hik]
    exact hs
  | cons c rest ih =>
    obtain ⟨v, s1, _, hkeeps, hrun⟩ := initFrom_cons_ok henv hrun
    rw [← hkeeps] at hs
    have hrest := ih (hs.insert hik v) (by omega) hrun
    have hmax : max (max k (i + 1)) (i + 1 + rest.length) = max k (i + (c :: rest).length) := by
      rw [List.length_cons]
      omega
    rw [← hmax]
    exact hrest

/-- An attempt that fails leaves at least one constant without a value, if there was one. -/
theorem initFrom_leading_of_error {i k : Nat} {stop : Stop} (hs : Leading s.constants k)
    (hik : i ≤ k) (hrun : initFrom env i cs s = .error stop s') :
    ∃ j, i ≤ j ∧ j < i + cs.length ∧ Leading s'.constants (max k j) := by
  induction cs generalizing i k s with
  | nil => cases hrun
  | cons c rest ih =>
    have hkeeps := keepsConstants_closed.eval henv c.value s
    have hlength : i + (c :: rest).length = i + 1 + rest.length := by
      rw [List.length_cons]
      omega
    rw [hlength]
    cases heval : eval env c.value s with
    | error stop s1 =>
      rw [initFrom_cons_of_error heval] at hrun
      rw [heval] at hkeeps
      cases hrun
      refine ⟨i, Nat.le_refl i, by omega, ?_⟩
      rw [Nat.max_eq_left hik]
      exact hkeeps ▸ hs
    | ok v s1 =>
      rw [initFrom_cons heval] at hrun
      rw [heval] at hkeeps
      have hs1 : Leading s1.constants k := hkeeps ▸ hs
      obtain ⟨j, hij, hj, hleading⟩ := ih (hs1.insert hik v) (by omega) hrun
      have hmax : max (max k (i + 1)) j = max k j := by omega
      rw [hmax] at hleading
      exact ⟨j, by omega, hj, hleading⟩

/-- The value of a constant stays while those after it are evaluated. -/
theorem initFrom_lookup {i : Nat} {id : ConstantId} (hid : id.index < i)
    (hrun : initFrom env i cs s = .ok () s') : s'.constants.lookup id = s.constants.lookup id := by
  induction cs generalizing i s with
  | nil =>
    cases hrun
    rfl
  | cons c rest ih =>
    obtain ⟨v, s1, _, hkeeps, hrun⟩ := initFrom_cons_ok henv hrun
    have hne : id ≠ ⟨i⟩ := by
      rintro rfl
      exact Nat.lt_irrefl _ hid
    rw [ih (by omega) hrun]
    show (assocInsert ⟨i⟩ v s1.constants).lookup id = _
    rw [lookup_assocInsert, if_neg hne, hkeeps]

/-- A constant has the value that its expression comes to after the constants before it. -/
theorem initFrom_value {i n : Nat} {c : Constant} (hc : cs[n]? = some c)
    (hrun : initFrom env i cs s = .ok () s') :
    ∃ s1 v s2, initFrom env i (cs.take n) s = .ok () s1 ∧ eval env c.value s1 = .ok v s2 ∧
      s'.constants.lookup ⟨i + n⟩ = some v := by
  induction cs generalizing i n s with
  | nil => cases hc
  | cons d rest ih =>
    obtain ⟨v, s1, heval, _, hrest⟩ := initFrom_cons_ok henv hrun
    cases n with
    | zero =>
      cases hc
      refine ⟨s, v, s1, rfl, heval, ?_⟩
      rw [Nat.add_zero, initFrom_lookup henv (Nat.lt_succ_self i) hrest]
      show (assocInsert ⟨i⟩ v s1.constants).lookup ⟨i⟩ = _
      rw [lookup_assocInsert, if_pos rfl]
    | succ n =>
      obtain ⟨s2, u, s3, hbefore, hvalue, hlookup⟩ := ih hc hrest
      refine ⟨s2, u, s3, ?_, hvalue, ?_⟩
      · rw [List.take_succ_cons, initFrom_cons heval]
        exact hbefore
      · rw [Nat.add_succ, ← Nat.succ_add]
        exact hlookup

end Order

/-! ## Evaluation behind other storage -/

/-- Computations that stop for the same reason, or both come to their end in states that are
related. -/
inductive EndAlike (L : State → State → Prop) :
    EStateM.Result Stop State Unit → EStateM.Result Stop State Unit → Prop where
  | ok {s t : State} (h : L s t) : EndAlike L (.ok () s) (.ok () t)
  | error (stop : Stop) {s t : State} : EndAlike L (.error stop s) (.error stop t)

theorem EndAlike.withFrame {base : Heap} {i : Nat} {x y : Exec Unit} {f g : Frame} {s t : State}
    (h : EndAlike (Linked base i) (x { s with frames := f :: s.frames })
      (y { t with frames := g :: t.frames })) :
    EndAlike (Linked base i) (Exec.withFrame f x s) (Exec.withFrame g y t) := by
  unfold Exec.withFrame
  generalize x { s with frames := f :: s.frames } = r at h ⊢
  generalize y { t with frames := g :: t.frames } = r' at h ⊢
  cases h with
  | ok hlinked => exact .ok ⟨hlinked.heap, hlinked.inert, hlinked.constants⟩
  | error stop => exact .error stop

section Behind

variable {p : Program} (hp : p.ConstantsFrozen) {base : Heap} {env env' : Env}
  (hfuel : env'.fuel = env.fuel)

include hp hfuel

/-- Machines that go through the constants side by side end alike, and how they make calls does not
matter. -/
theorem initFrom_alike {cs : List Constant} {i : Nat} (hcs : p.constants.toList.drop i = cs)
    {s t : State} (hst : Linked base i s t) :
    EndAlike (Linked base (i + cs.length)) (initFrom env i cs s) (initFrom env' i cs t) ∧
      initFrom env' i cs s = initFrom env i cs s := by
  induction cs generalizing i s t with
  | nil => exact ⟨.ok hst, rfl⟩
  | cons c rest ih =>
    obtain ⟨hc, hrest⟩ := constants_of_drop hcs
    have hyields : Yields base i (eval env c.value) (eval env' c.value) :=
      eval_yields hfuel (hp hc)
    have hyields' : Yields base i (eval env' c.value) (eval env' c.value) :=
      eval_yields rfl (hp hc)
    obtain ⟨hs, ht⟩ := hyields s t hst
    obtain ⟨hs', _⟩ := hyields' s t hst
    cases heval : eval env' c.value t with
    | error stop t1 =>
      rw [heval] at hs hs'
      rw [initFrom_cons_of_error heval, initFrom_cons_of_error hs, initFrom_cons_of_error hs']
      exact ⟨.error stop, rfl⟩
    | ok v t1 =>
      rw [heval] at hs hs'
      rw [initFrom_cons heval, initFrom_cons hs, initFrom_cons hs']
      obtain ⟨hv, hinert, hconstants⟩ := ht v t1 heval
      have hlinked : Linked base (i + 1)
          { s with
            heap := base.append t1.heap
            constants := assocInsert ⟨i⟩ (v.behind base) s.constants }
          { t1 with constants := assocInsert ⟨i⟩ v t1.constants } := by
        refine ⟨rfl, hinert, fun id hid => ?_⟩
        show ∃ u, (assocInsert ⟨i⟩ v t1.constants).lookup id = some u ∧ u.Inert ∧
          (assocInsert ⟨i⟩ (v.behind base) s.constants).lookup id = some (u.behind base)
        rw [lookup_assocInsert, lookup_assocInsert, hconstants]
        by_cases heq : id = ⟨i⟩
        · rw [if_pos heq, if_pos heq]
          exact ⟨v, rfl, hv, rfl⟩
        · have hne : id.index ≠ i := fun h => heq (congrArg ConstantId.mk h)
          rw [if_neg heq, if_neg heq]
          exact hst.constants id (by omega)
      have hnext := ih hrest hlinked
      have hlength : i + 1 + rest.length = i + (c :: rest).length := by
        rw [List.length_cons]
        omega
      rw [hlength] at hnext
      exact hnext

end Behind

variable {s s' : State}

variable {α : Type} {x : Exec α} {f : Frame} {env : Env}

theorem withFrame_eq_ok {a : α} (h : Exec.withFrame f x s = .ok a s') :
    ∃ s1, x { s with frames := f :: s.frames } = .ok a s1 ∧ s'.constants = s1.constants := by
  unfold Exec.withFrame at h
  generalize x { s with frames := f :: s.frames } = r at h ⊢
  cases r with
  | ok _ s1 =>
    cases h
    exact ⟨s1, rfl, rfl⟩
  | error _ _ => cases h

theorem withFrame_eq_error {stop : Stop} (h : Exec.withFrame f x s = .error stop s') :
    ∃ s1, x { s with frames := f :: s.frames } = .error stop s1 ∧ s'.constants = s1.constants := by
  unfold Exec.withFrame at h
  generalize x { s with frames := f :: s.frames } = r at h ⊢
  cases r with
  | ok _ _ => cases h
  | error _ s1 =>
    cases h
    exact ⟨s1, rfl, rfl⟩

theorem initConstants_of_done (h : s.constants.length = env.program.constants.size) :
    initConstants env s = .ok () s := by
  show (if s.constants.length = env.program.constants.size then pure () else _ : Exec Unit) s = _
  rw [if_pos h]
  rfl

theorem initConstants_of_not_done (h : s.constants.length ≠ env.program.constants.size) :
    initConstants env s =
      Exec.withFrame {} (initFrom env 0 env.program.constants.toList) s := by
  show (if s.constants.length = env.program.constants.size then pure () else _ : Exec Unit) s = _
  rw [if_neg h]

/-- A machine that lacks constants evaluates all of them, as a new machine does. -/
theorem initConstants_alike {p : Program} (hp : p.ConstantsFrozen) {env' : Env}
    (henv : env.program = p) (henv' : env'.program = p) (hfuel : env'.fuel = env.fuel) {k : Nat}
    (hs : Leading s.constants k) (hk : k < p.constants.size) :
    EndAlike (Linked s.heap p.constants.size) (initConstants env s) (initConstants env' {}) ∧
      initConstants env' s = initConstants env s := by
  have hlength := hs.length_eq
  have hlinked : Linked s.heap 0 { s with frames := {} :: s.frames } { frames := [{}] } :=
    ⟨s.heap.append_empty.symm, Heap.inert_empty, fun id hid => (Nat.not_lt_zero _ hid).elim⟩
  obtain ⟨halike, hsame⟩ := initFrom_alike hp hfuel List.drop_zero hlinked
  rw [Nat.zero_add, Array.length_toList] at halike
  have hnew : ({} : State).constants.length ≠ p.constants.size := by
    rw [List.length_nil]
    omega
  have hlacks : s.constants.length ≠ p.constants.size := by omega
  rw [initConstants_of_not_done (henv.symm ▸ hlacks), initConstants_of_not_done (henv'.symm ▸ hnew),
    initConstants_of_not_done (henv'.symm ▸ hlacks), henv, henv']
  refine ⟨halike.withFrame, ?_⟩
  unfold Exec.withFrame
  rw [hsame]

/-! ## Bodies that are not run -/

/-- Runs bodies as `invoke` does, but in allowed states only; elsewhere something else is done. -/
def invokeIf (p : Program) (allowed : State → Bool) (other : Invoke) : Nat → Invoke
  | 0, _, _, _ => throw .exhausted
  | fuel + 1, name, body, frame => fun s =>
    if allowed s then
      let env := { program := p, invoke := invokeIf p allowed other fuel, fuel }
      (Exec.withFrame frame (execBlock env body) >>= flowResult name) s
    else
      other name body frame s

/-- The environment of a run whose bodies are run in allowed states only. -/
def Env.ofFuelIf (p : Program) (allowed : State → Bool) (other : Invoke) (fuel : Nat) : Env :=
  { program := p, invoke := invokeIf p allowed other fuel, fuel }

/-- The second computation does what the first one does, where that is allowed. -/
def SameIf (allowed : State → Bool) (α : Type) (x y : Exec α) : Prop :=
  ∀ s, allowed s = true → y s = x s ∧ (finalState (x s)).constants = s.constants

section Allowed

variable {allowed : State → Bool}
  (hallowed : ∀ {s s'}, s'.constants = s.constants → allowed s' = allowed s)

theorem SameIf.refl {α : Type} {x : Exec α} (h : KeepsConstants α x) : SameIf allowed α x x :=
  fun s _ => ⟨rfl, h s⟩

include hallowed

theorem SameIf.bind {α β : Type} {x y : Exec α} {f g : α → Exec β} (h : SameIf allowed α x y)
    (hf : ∀ a, SameIf allowed β (f a) (g a)) : SameIf allowed β (x >>= f) (y >>= g) := by
  intro s hs
  obtain ⟨heq, hkeeps⟩ := h s hs
  show EStateM.bind y g s = EStateM.bind x f s ∧ (finalState (EStateM.bind x f s)).constants = _
  unfold EStateM.bind
  rw [heq]
  cases hx : x s with
  | error stop s1 =>
    rw [hx] at hkeeps
    exact ⟨rfl, hkeeps⟩
  | ok a s1 =>
    rw [hx] at hkeeps
    obtain ⟨heq', hkeeps'⟩ := hf a s1 ((hallowed hkeeps).trans hs)
    exact ⟨heq', hkeeps'.trans hkeeps⟩

theorem SameIf.withFrame {α : Type} {x y : Exec α} (h : SameIf allowed α x y) (f : Frame) :
    SameIf allowed α (Exec.withFrame f x) (Exec.withFrame f y) := by
  intro s hs
  have hs' : allowed { s with frames := f :: s.frames } = true := by
    rw [← hs]
    exact hallowed rfl
  obtain ⟨heq, hkeeps⟩ := h _ hs'
  unfold Exec.withFrame
  rw [heq]
  cases hx : x { s with frames := f :: s.frames } with
  | ok a s1 =>
    rw [hx] at hkeeps
    exact ⟨rfl, hkeeps⟩
  | error stop s1 =>
    rw [hx] at hkeeps
    exact ⟨rfl, hkeeps⟩

theorem sameIf_coupled : Coupled (SameIf allowed) where
  closed :=
    { pure := fun a => .refl (keepsConstants_closed.pure a)
      stop := fun hset hfuel => .refl (keepsConstants_closed.stop hset hfuel)
      exhausted := .refl keepsConstants_closed.exhausted
      bind := fun hact hf => hact.bind hallowed hf
      look := fun f => .refl (keepsConstants_closed.look f)
      change := fun hf => .refl (keepsConstants_closed.change hf)
      alloc := fun hf => .refl (keepsConstants_closed.alloc hf)
      constant := fun p id => .refl (keepsConstants_closed.constant p id)
      unset := fun name => .refl (keepsConstants_closed.unset name)
      frame := .refl keepsConstants_closed.frame
      setFrame := fun f => .refl (keepsConstants_closed.setFrame f) }
  bind h hf := h.bind hallowed hf

theorem ofFuelIf_same (p : Program) (other : Invoke) (fuel : Nat) :
    (Env.ofFuel p fuel).Pairs (SameIf allowed) (Env.ofFuelIf p allowed other fuel) := by
  have hcoupled := sameIf_coupled hallowed
  induction fuel with
  | zero => exact ⟨rfl, fun _ _ _ => hcoupled.closed.exhausted, .inl rfl⟩
  | succ fuel ih =>
    refine ⟨rfl, fun name body frame s hs => ?_, .inl rfl⟩
    have hbody : SameIf allowed Value
        (Exec.withFrame frame (execBlock (.ofFuel p fuel) body) >>= flowResult name)
        (Exec.withFrame frame (execBlock (.ofFuelIf p allowed other fuel) body) >>=
          flowResult name) :=
      hcoupled.bind ((hcoupled.execBlock ih body).withFrame hallowed frame) fun flow =>
        hcoupled.closed.flowResult name flow
    show (if allowed s then _ else _ : EStateM.Result Stop State Value) = _ ∧ _
    rw [if_pos hs]
    exact hbody s hs

end Allowed

/-! ## Requests -/

/-- The checks at the beginning of a run. They give the function that is to be called. -/
def accept (p : Program) (entry : String) (arguments : List Value) (h : Heap) :
    Except Stop FunctionId :=
  match p.function? entry with
  | none => .error (.fault (.unknownEntry entry))
  | some id =>
    match p.getFunction? id with
    | none => .error .dangling
    | some f =>
      if f.parameters.length = arguments.length then
        match checkArguments p h f.parameters arguments with
        | .ok _ => .ok id
        | .error cause => .error (.fault cause)
      else
        .error (.fault (.argumentMismatch entry f.parameters.length arguments.length))

/-- Runs the free function called `entry` in an environment: first the checks, then the constants,
then the function. -/
def runIn (env : Env) (entry : String) (arguments : List Value) : Exec Value := fun s =>
  match accept env.program entry arguments s.heap with
  | .error stop => .error stop s
  | .ok id => (initConstants env >>= fun _ => callFunction env id none arguments) s

theorem run_eq_runIn (p : Program) (fuel : Nat) (entry : String) (arguments : List Value) :
    run p fuel entry arguments = runIn (.ofFuel p fuel) entry arguments := by
  funext s
  have hprogram : (Env.ofFuel p fuel).program = p := rfl
  unfold run runIn accept
  rw [hprogram]
  cases p.function? entry with
  | none => rfl
  | some id =>
    dsimp only
    cases p.getFunction? id with
    | none => rfl
    | some f =>
      dsimp only
      show (if f.parameters.length = arguments.length then _ else _ : Exec Value) s = _
      split
      · show (Exec.ofExcept (checkArguments p s.heap f.parameters arguments) >>= _ :
          Exec Value) s = _
        cases checkArguments p s.heap f.parameters arguments with
        | ok _ => rfl
        | error cause => rfl
      · rfl

section Stages

variable {env : Env} {entry : String} {arguments : List Value} {s s' : State}

theorem runIn_of_refused {stop : Stop}
    (h : accept env.program entry arguments s.heap = .error stop) :
    runIn env entry arguments s = .error stop s := by
  unfold runIn
  rw [h]

variable {id : FunctionId} (h : accept env.program entry arguments s.heap = .ok id)

include h

theorem runIn_of_stopped {stop : Stop} (hinit : initConstants env s = .error stop s') :
    runIn env entry arguments s = .error stop s' := by
  unfold runIn
  rw [h]
  show EStateM.bind _ _ s = _
  unfold EStateM.bind
  rw [hinit]

theorem runIn_of_evaluated (hinit : initConstants env s = .ok () s') :
    runIn env entry arguments s = callFunction env id none arguments s' := by
  unfold runIn
  rw [h]
  show EStateM.bind _ _ s = _
  unfold EStateM.bind
  rw [hinit]

end Stages

namespace Request

variable (p : Program) (request : Request)

/-- The machine with the arguments of a request in storage. -/
def stored (s : State) : State :=
  { s with heap := (request.store s.heap).2 }

/-- A request names a function that there is, with arguments that fit. -/
def Accepted (s : State) : Prop :=
  ∃ id, accept p request.entry (request.store s.heap).1 (request.stored s).heap = .ok id

/-- Serves a request, but runs bodies in allowed states only; elsewhere something else is done. -/
def serveIf (allowed : State → Bool) (other : Invoke) : Exec Value := fun s =>
  runIn (.ofFuelIf p allowed other request.fuel) request.entry (request.store s.heap).1
    (request.stored s)

/-- A request runs bodies in allowed states only: whatever were done elsewhere, it would do the same
and give the same. -/
def RunsBodiesIf (allowed : State → Bool) (s : State) : Prop :=
  ∀ other, request.serve p s = request.serveIf p allowed other s

theorem serve_eq (s : State) : request.serve p s =
    runIn (.ofFuel p request.fuel) request.entry (request.store s.heap).1 (request.stored s) := by
  rw [← run_eq_runIn]
  rfl

end Request

/-- Every constant has a value. -/
def allBound (p : Program) (s : State) : Bool :=
  (List.range p.constants.size).all fun i => (s.constants.lookup ⟨i⟩).isSome

theorem allBound_congr {p : Program} (h : s'.constants = s.constants) :
    allBound p s' = allBound p s := by
  unfold allBound
  rw [h]

theorem Leading.allBound {p : Program} (h : Leading s.constants p.constants.size) :
    allBound p s = true := by
  refine List.all_eq_true.mpr fun i hi => ?_
  have hi : (⟨i⟩ : ConstantId).index < p.constants.size := List.mem_range.mp hi
  obtain ⟨v, hv⟩ := h.lookup hi
  rw [hv]
  rfl

/-- What the constants of a machine are between requests: the first ones have values, and if all of
them do then these are the values that a new machine gives them, behind other storage. -/
structure InOrder (p : Program) (constants : List (ConstantId × Value)) : Prop where
  leading : ∃ k, k ≤ p.constants.size ∧ Leading constants k
  complete : Leading constants p.constants.size → ∃ fuel t base,
    initConstants (.ofFuel p fuel) {} = .ok () t ∧ ∀ id : ConstantId,
      id.index < p.constants.size → ∃ v, t.constants.lookup id = some v ∧
        constants.lookup id = some (v.behind base)

section InOrder

variable {p : Program}

theorem inOrder_nil (p : Program) : InOrder p [] := by
  refine ⟨⟨0, Nat.zero_le _, rfl⟩, fun h => ⟨0, {}, {}, initConstants_of_done h.length_eq, ?_⟩⟩
  intro id hid
  have hsize : 0 = p.constants.size := h.length_eq
  omega

variable {fuel : Nat} {s s' : State}

/-- A machine that lacks constants evaluates all of them, as a new machine does. -/
theorem ofFuel_alike (hp : p.ConstantsFrozen) (fuel : Nat) {k : Nat} (hs : Leading s.constants k)
    (hk : k < p.constants.size) :
    EndAlike (Linked s.heap p.constants.size) (initConstants (.ofFuel p fuel) s)
      (initConstants (.ofFuel p fuel) {}) :=
  (initConstants_alike hp rfl rfl rfl hs hk).1

theorem ofFuel_lacks {k : Nat} (hs : Leading s.constants k) (hk : k < p.constants.size) :
    initConstants (.ofFuel p fuel) s =
      Exec.withFrame {} (initFrom (.ofFuel p fuel) 0 p.constants.toList) s := by
  have hlength := hs.length_eq
  exact initConstants_of_not_done (show s.constants.length ≠ p.constants.size by omega)

/-- How a machine makes calls does not matter for the evaluation of its constants. -/
theorem InOrder.init_congr (hp : p.ConstantsFrozen) (h : InOrder p s.constants) {env env' : Env}
    (henv : env.program = p) (henv' : env'.program = p) (hfuel : env'.fuel = env.fuel) :
    initConstants env' s = initConstants env s := by
  obtain ⟨k, hk, hleading⟩ := h.leading
  have hlength := hleading.length_eq
  by_cases hdone : k = p.constants.size
  · subst hdone
    rw [initConstants_of_done (henv'.symm ▸ hlength), initConstants_of_done (henv.symm ▸ hlength)]
  · exact (initConstants_alike hp henv henv' hfuel hleading (by omega)).2

/-- After the constants have been evaluated all of them have values, those of a new machine. -/
theorem InOrder.init_ok (hp : p.ConstantsFrozen) (h : InOrder p s.constants)
    (hrun : initConstants (.ofFuel p fuel) s = .ok () s') :
    InOrder p s'.constants ∧ Leading s'.constants p.constants.size := by
  obtain ⟨k, hk, hleading⟩ := h.leading
  by_cases hdone : k = p.constants.size
  · subst hdone
    cases (initConstants_of_done hleading.length_eq).symm.trans hrun
    exact ⟨h, hleading⟩
  · have hlt : k < p.constants.size := by omega
    have hall : Leading s'.constants p.constants.size := by
      obtain ⟨s1, hinit, hs'⟩ := withFrame_eq_ok ((ofFuel_lacks hleading hlt).symm.trans hrun)
      have hmax := initFrom_leading (ofFuel_keepsConstants p fuel)
        (show Leading ({ s with frames := {} :: s.frames } : State).constants k from hleading)
        (Nat.zero_le k) hinit
      rw [Array.length_toList, Nat.zero_add, Nat.max_eq_right hk, ← hs'] at hmax
      exact hmax
    have halike := ofFuel_alike hp fuel hleading hlt
    rw [hrun] at halike
    refine ⟨⟨⟨_, Nat.le_refl _, hall⟩, fun _ => ?_⟩, hall⟩
    cases hnew : initConstants (.ofFuel p fuel) {} with
    | error stop t =>
      rw [hnew] at halike
      cases halike
    | ok _ t =>
      rw [hnew] at halike
      cases halike with
      | ok hlinked =>
        refine ⟨fuel, t, s.heap, hnew, fun id hid => ?_⟩
        obtain ⟨v, ht, _, hs⟩ := hlinked.constants id hid
        exact ⟨v, ht, hs⟩

/-- Where the evaluation of the constants stops, it stops on a new machine. One of them stays
without a value. -/
theorem InOrder.init_error (hp : p.ConstantsFrozen) (h : InOrder p s.constants) {stop : Stop}
    (hrun : initConstants (.ofFuel p fuel) s = .error stop s') :
    InOrder p s'.constants ∧ ∃ t, initConstants (.ofFuel p fuel) {} = .error stop t := by
  obtain ⟨k, hk, hleading⟩ := h.leading
  by_cases hdone : k = p.constants.size
  · subst hdone
    cases (initConstants_of_done hleading.length_eq).symm.trans hrun
  · have hlt : k < p.constants.size := by omega
    constructor
    · obtain ⟨s1, hinit, hs'⟩ := withFrame_eq_error ((ofFuel_lacks hleading hlt).symm.trans hrun)
      obtain ⟨j, _, hj, hmax⟩ := initFrom_leading_of_error (ofFuel_keepsConstants p fuel)
        (show Leading ({ s with frames := {} :: s.frames } : State).constants k from hleading)
        (Nat.zero_le k) hinit
      rw [Array.length_toList, Nat.zero_add] at hj
      rw [← hs'] at hmax
      refine ⟨⟨max k j, by omega, hmax⟩, fun hall => ?_⟩
      have hsize := hall.length_eq.symm.trans hmax.length_eq
      omega
    · have halike := ofFuel_alike hp fuel hleading hlt
      rw [hrun] at halike
      cases hnew : initConstants (.ofFuel p fuel) {} with
      | ok _ t =>
        rw [hnew] at halike
        cases halike
      | error _ t =>
        rw [hnew] at halike
        cases halike
        exact ⟨t, rfl⟩

/-- Requests keep the constants in order. -/
theorem InOrder.serve (hp : p.ConstantsFrozen) (h : InOrder p s.constants) (request : Request) :
    InOrder p (finalState (request.serve p s)).constants := by
  have hstored : InOrder p (request.stored s).constants := h
  rw [request.serve_eq]
  cases haccept : accept p request.entry (request.store s.heap).1 (request.stored s).heap with
  | error stop =>
    rw [runIn_of_refused haccept]
    exact h
  | ok id =>
    cases hinit : initConstants (.ofFuel p request.fuel) (request.stored s) with
    | error stop s1 =>
      rw [runIn_of_stopped haccept hinit]
      exact (hstored.init_error hp hinit).1
    | ok _ s1 =>
      have hcall := keepsConstants_closed.callFunction (ofFuel_keepsConstants p request.fuel) id
        none (request.store s.heap).1 s1
      rw [runIn_of_evaluated haccept hinit, hcall]
      exact (hstored.init_ok hp hinit).1

theorem InOrder.serveAll (hp : p.ConstantsFrozen) (h : InOrder p s.constants)
    (requests : List Request) : InOrder p (serveAll p requests s).constants := by
  induction requests generalizing s with
  | nil => exact h
  | cons request rest ih => exact ih (h.serve hp request)

/-- No body is run before all constants have values. -/
theorem InOrder.runsBodiesIf (hp : p.ConstantsFrozen) (h : InOrder p s.constants)
    (request : Request) : request.RunsBodiesIf p (allBound p) s := by
  intro other
  have hstored : InOrder p (request.stored s).constants := h
  have hsame : initConstants (.ofFuelIf p (allBound p) other request.fuel) (request.stored s) =
      initConstants (.ofFuel p request.fuel) (request.stored s) :=
    hstored.init_congr hp rfl rfl rfl
  rw [request.serve_eq]
  unfold Request.serveIf
  cases haccept : accept p request.entry (request.store s.heap).1 (request.stored s).heap with
  | error stop => rw [runIn_of_refused haccept, runIn_of_refused haccept]
  | ok id =>
    cases hinit : initConstants (.ofFuel p request.fuel) (request.stored s) with
    | error stop s1 =>
      rw [runIn_of_stopped haccept hinit, runIn_of_stopped haccept (hsame.trans hinit)]
    | ok _ s1 =>
      rw [runIn_of_evaluated haccept hinit, runIn_of_evaluated haccept (hsame.trans hinit)]
      have hbound := (hstored.init_ok hp hinit).2.allBound
      have hpairs : (Env.ofFuel p request.fuel).Pairs (SameIf (allBound p))
          (.ofFuelIf p (allBound p) other request.fuel) :=
        ofFuelIf_same allBound_congr p other request.fuel
      have hcoupled : Coupled (SameIf (allBound p)) := sameIf_coupled allBound_congr
      exact (hcoupled.paired.callFunction hpairs id none _ s1 hbound).1.symm

/-- Once all constants have values they keep them. -/
theorem constants_serve (hs : Leading s.constants p.constants.size) (request : Request) :
    (finalState (request.serve p s)).constants = s.constants := by
  have hinit : initConstants (.ofFuel p request.fuel) (request.stored s) =
      .ok () (request.stored s) :=
    initConstants_of_done hs.length_eq
  rw [request.serve_eq]
  cases haccept : accept p request.entry (request.store s.heap).1 (request.stored s).heap with
  | error stop =>
    rw [runIn_of_refused haccept]
    rfl
  | ok id =>
    rw [runIn_of_evaluated haccept hinit]
    exact keepsConstants_closed.callFunction (ofFuel_keepsConstants p request.fuel) id none _ _

theorem constants_serveAll (hs : Leading s.constants p.constants.size) (requests : List Request) :
    (serveAll p requests s).constants = s.constants := by
  induction requests generalizing s with
  | nil => rfl
  | cons request rest ih =>
    have hstep := constants_serve hs request
    exact (ih (hstep.symm ▸ hs)).trans hstep

/-- Where a new machine cannot evaluate the constants, no machine can: each request that gets to
them stops for the same reason, and runs no body. -/
theorem InOrder.serve_stops (hp : p.ConstantsFrozen) (h : InOrder p s.constants) {stop : Stop}
    {t : State} (hnew : initConstants (.ofFuel p fuel) {} = .error stop t)
    (hstop : stop ≠ .exhausted) {request : Request} (haccept : request.Accepted p s) :
    (∃ s', request.serve p s = .error stop s' ∨
      request.fuel < fuel ∧ request.serve p s = .error .exhausted s') ∧
    request.RunsBodiesIf p (fun _ => false) s := by
  obtain ⟨id, haccept⟩ := haccept
  have hstored : InOrder p (request.stored s).constants := h
  obtain ⟨stop', t', hnew', hstop'⟩ := initConstants_stops hnew hstop request.fuel
  -- if all constants had values then a new machine could evaluate them after all
  have hlacks : ¬Leading (request.stored s).constants p.constants.size := by
    intro hall
    obtain ⟨n, t1, _, hok, _⟩ := hstored.complete hall
    obtain ⟨_, _, herror, _⟩ := initConstants_stops hnew hstop n
    cases hok.symm.trans herror
  obtain ⟨k, hk, hleading⟩ := hstored.leading
  have hlt : k < p.constants.size := by
    refine Nat.lt_of_le_of_ne hk ?_
    rintro rfl
    exact hlacks hleading
  obtain ⟨s', hinit⟩ : ∃ s', initConstants (.ofFuel p request.fuel) (request.stored s) =
      .error stop' s' := by
    have halike := ofFuel_alike hp request.fuel hleading hlt
    rw [hnew'] at halike
    generalize initConstants (.ofFuel p request.fuel) (request.stored s) = r at halike ⊢
    cases halike
    exact ⟨_, rfl⟩
  have hserve : request.serve p s = .error stop' s' := by
    rw [request.serve_eq, runIn_of_stopped haccept hinit]
  refine ⟨⟨s', ?_⟩, fun other => ?_⟩
  · rw [hserve]
    obtain rfl | ⟨hfuel, rfl⟩ := hstop'
    · exact .inl rfl
    · exact .inr ⟨hfuel, rfl⟩
  · have hsame :
        initConstants (.ofFuelIf p (fun _ => false) other request.fuel) (request.stored s) =
          initConstants (.ofFuel p request.fuel) (request.stored s) :=
      hstored.init_congr hp rfl rfl rfl
    unfold Request.serveIf
    rw [hserve, runIn_of_stopped haccept (hsame.trans hinit)]

end InOrder

/-! ## Initial values -/

/-- The value of a constant, evaluated after the constants before it. -/
def initialValue (env : Env) (id : ConstantId) : Exec Value :=
  Exec.withFrame {} do
    initFrom env 0 (env.program.constants.toList.take id.index)
    let c ← Exec.ofOption (env.program.getConstant? id)
    eval env c.value

theorem HasType.behind {τ : Typing} {v : Value} {t : Primitive} (h : HasType τ v (.primitive t))
    (base : Heap) : v.behind base = v := by
  cases h <;> rfl

section Values

variable {p : Program} {fuel : Nat} {t : State} {id : ConstantId} {c : Constant}

theorem initialValue_of_initConstants (hc : p.getConstant? id = some c)
    (hrun : initConstants (.ofFuel p fuel) {} = .ok () t) :
    ∃ v t', initialValue (.ofFuel p fuel) id {} = .ok v t' ∧ t.constants.lookup id = some v := by
  have hlt : id.index < p.constants.size := (Array.getElem?_eq_some_iff.mp hc).1
  have hempty : Leading ({} : State).constants 0 := rfl
  obtain ⟨t1, hinit, ht⟩ :=
    withFrame_eq_ok ((ofFuel_lacks hempty (by omega)).symm.trans hrun)
  have hget : p.constants.toList[id.index]? = some c := by
    rw [Array.getElem?_toList]
    exact hc
  obtain ⟨s1, v, s2, hbefore, heval, hlookup⟩ :=
    initFrom_value (ofFuel_keepsConstants p fuel) hget hinit
  rw [Nat.zero_add, ← ht] at hlookup
  refine ⟨v, { s2 with frames := s2.frames.tail }, ?_, hlookup⟩
  have hbody : (initFrom (.ofFuel p fuel) 0 (p.constants.toList.take id.index) >>= fun _ =>
      Exec.ofOption (p.getConstant? id) >>= fun c => eval (.ofFuel p fuel) c.value)
        { frames := [{}] } = .ok v s2 := by
    simp only [bind, EStateM.bind, hbefore, hc]
    exact heval
  exact withFrame_of_ok hbody

/-- A constant of primitive type has the value of its expression on a new machine. -/
theorem InOrder.primitive (hp : p.Sound) {constants : List (ConstantId × Value)}
    (h : InOrder p constants) (hall : Leading constants p.constants.size)
    (hc : p.getConstant? id = some c) {type : Primitive} (htype : c.type = .primitive type) :
    ∃ fuel v t, initialValue (.ofFuel p fuel) id {} = .ok v t ∧ constants.lookup id = some v := by
  obtain ⟨fuel, t, base, hrun, hvalues⟩ := h.complete hall
  obtain ⟨v, t', hinitial, hlookup⟩ := initialValue_of_initConstants hc hrun
  obtain ⟨u, hu, hmoved⟩ := hvalues id (Array.getElem?_eq_some_iff.mp hc).1
  cases hlookup.symm.trans hu
  -- on a new machine the constants have their types
  have hrest : Resting p {} {} :=
    ⟨.empty p {}, by rintro _ _ ⟨⟩, ⟨0, Nat.zero_le _, rfl⟩, rfl⟩
  have hends := initConstants_ends hp ((ofFuel_safe hp fuel).constants hp) hrest
  obtain ⟨τ, _, hresting, _⟩ := hends.of_ok () hrun
  obtain ⟨c', hc', hv⟩ := hresting.constants id v hu
  cases hc.symm.trans hc'
  rw [htype] at hv
  rw [hv.behind] at hmoved
  exact ⟨fuel, v, t', hinitial, hmoved⟩

end Values

/-! ## Lowered programs -/

section Lowered

variable {m : Syntax.Module} {limit : Option Nat} {p : Program}

/-- A machine for a lowered program evaluates its constants once, all or none.

Whatever requests it has served, and whatever they put into storage, the next one runs no body before
all constants have values: anything could be done in the place of such a body.

Once the constants have been evaluated they keep their values, and a constant of primitive type has
the value that its expression has on a new machine.

If they cannot be evaluated, then no later request that comes to them can evaluate them. It stops for
the same reason, or because it has less fuel, and runs no body. -/
theorem constants_evaluated_once (h : lower m limit = .ok p) (served : List Request)
    (request : Request) :
    let s := serveAll p served {}
    request.RunsBodiesIf p (allBound p) s ∧
    (request.Accepted p s → ∀ s',
      initConstants (.ofFuel p request.fuel) (request.stored s) = .ok () s' →
      allBound p s' = true ∧
      (∀ later, (serveAll p later (finalState (request.serve p s))).constants = s'.constants) ∧
      ∀ id c type, p.getConstant? id = some c → c.type = .primitive type → ∃ fuel v t,
        initialValue (.ofFuel p fuel) id {} = .ok v t ∧ s'.constants.lookup id = some v) ∧
    (request.Accepted p s → ∀ stop s',
      initConstants (.ofFuel p request.fuel) (request.stored s) = .error stop s' →
      stop ≠ .exhausted →
      (∃ s1, request.serve p s = .error stop s1) ∧
      ∀ (later : List Request) (next : Request),
        let s1 := serveAll p later (finalState (request.serve p s))
        next.Accepted p s1 →
        (∃ s2, next.serve p s1 = .error stop s2 ∨
          next.fuel < request.fuel ∧ next.serve p s1 = .error .exhausted s2) ∧
        next.RunsBodiesIf p (fun _ => false) s1) := by
  intro s
  have hfrozen : p.ConstantsFrozen := lower_constantsFrozen h
  have hs : InOrder p s.constants := (inOrder_nil p).serveAll hfrozen served
  have hstored : InOrder p (request.stored s).constants := hs
  refine ⟨hs.runsBodiesIf hfrozen request, ?_, ?_⟩
  · rintro ⟨id, haccept⟩ s' hinit
    obtain ⟨hs', hall⟩ := hstored.init_ok hfrozen hinit
    refine ⟨hall.allBound, fun later => ?_, fun id c type hc htype => ?_⟩
    · have hcall : (finalState (request.serve p s)).constants = s'.constants := by
        rw [request.serve_eq, runIn_of_evaluated haccept hinit]
        exact keepsConstants_closed.callFunction (ofFuel_keepsConstants p request.fuel) id none _ _
      exact (constants_serveAll (hcall.symm ▸ hall) later).trans hcall
    · exact hs'.primitive (lower_sound h) hall hc htype
  · rintro ⟨id, haccept⟩ stop s' hinit hstop
    obtain ⟨_, t, hnew⟩ := hstored.init_error hfrozen hinit
    refine ⟨⟨s', ?_⟩, ?_⟩
    · rw [request.serve_eq, runIn_of_stopped haccept hinit]
    · intro later next s1 hnext
      have hlater : InOrder p s1.constants := (hs.serve hfrozen request).serveAll hfrozen later
      exact hlater.serve_stops hfrozen hnew hstop hnext

end Lowered

/-! ## A constant without a value -/

/-- A module whose second constant cannot be evaluated. -/
def sharesModule : Syntax.Module where
  name := "Shares"
  constants := [⟨"parts", .list [.int 2, .int 4]⟩, ⟨"rest", .binary .divide (.int 1) (.int 0)⟩]
  functions := [
    { name := "take"
      parameters := []
      returnType := .int
      body := [.ret (some (.pop (.var "parts")))] }]
  models := []

def sharesProgram : Program :=
  match lower sharesModule none with
  | .ok p => p
  | .error _ => { name := "" }

/-- Takes the last part. -/
def takePart : Request :=
  { entry := "take", fuel := 8, store := fun h => Datum.storeAll h [] }

theorem takePart_stops : lower sharesModule none = .ok sharesProgram ∧
    ∀ later : List Request, ∃ s, takePart.serve sharesProgram
      (serveAll sharesProgram later (finalState (takePart.serve sharesProgram {}))) =
        .error (.fault .divisionByZero) s := by
  have hlower : lower sharesModule none = .ok sharesProgram := by cbv
  have haccept (s : State) : takePart.Accepted sharesProgram s := ⟨⟨0⟩, by cbv⟩
  have hinit : ∃ s', initConstants (.ofFuel sharesProgram 8) (takePart.stored {}) =
      .error (.fault .divisionByZero) s' := ⟨_, by cbv⟩
  obtain ⟨s', hinit⟩ := hinit
  obtain ⟨_, hlater⟩ := (constants_evaluated_once hlower [] takePart).2.2 (haccept {}) _ s' hinit
    (by rintro ⟨⟩)
  refine ⟨hlower, fun later => ?_⟩
  obtain ⟨⟨s2, hstops | ⟨hfuel, _⟩⟩, _⟩ := hlater later takePart (haccept _)
  · exact ⟨s2, hstops⟩
  · exact (Nat.lt_irrefl _ hfuel).elim

end Scribe.Machine
