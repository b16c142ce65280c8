import Scribe.Proofs.SafeEval

/-!
# Execution is safe

A sound statement runs safely and control leaves it in a way that its surroundings can take: a
`break` or `continue` only if one stands in it outside of its loops, and a return with a value of
the type that the callable returns. A body that ends in a return never comes to its end without
one. So calls are safe, by induction on how deep they may go (`ofFuel_safe`).
-/

namespace Scribe.Machine

open Scribe.Core
open Scribe.Lowering

/-! ## Control -/

/-- How control may leave code at a site. `loose` says whether a loop around it is asked for. -/
def FlowTyped (p : Program) (site : Site) (τ : Typing) (loose : Prop) : Flow → Prop
  | .next => True
  | .brk | .cont => loose
  | .ret v => ∃ callable t, site.callable = some callable ∧
      p.callableReturnType? callable = some t ∧ HasType τ v t

/-- A statement that runs safely. -/
def ExecSafe {p : Program} {ι : Type} (S : Setting p ι) (site : Site) (s : Stmt) : Prop :=
  ∀ w : World, Safe S.unfinished p site w (fun i => exec (S.env i) s)
    fun w' flow => FlowTyped p site w'.inner s.Loose flow

section Control

variable {p : Program} {ι : Type} {S : Setting p ι} {site : Site} {loose : Prop}

theorem execBlock_safe {block : List Stmt} (h : ∀ s ∈ block, ExecSafe S site s)
    (hloose : ∀ s ∈ block, s.Loose → loose) (w : World) :
    Safe S.unfinished p site w (fun i => execBlock (S.env i) block)
      fun w' flow => FlowTyped p site w'.inner loose flow := by
  induction block generalizing w with
  | nil => exact .pure trivial
  | cons s rest ih =>
    obtain ⟨hs, hrest⟩ := List.forall_mem_cons.mp h
    obtain ⟨hsloose, hrestloose⟩ := List.forall_mem_cons.mp hloose
    unfold execBlock
    refine .bind (hs w) fun w1 flow _ hflow => ?_
    cases flow with
    | next => exact ih hrest hrestloose w1
    | brk | cont => exact .pure (hsloose hflow)
    | ret v => exact .pure hflow

theorem execPart_safe {part : Option Stmt} (h : ∀ s ∈ part.toList, ExecSafe S site s)
    (w : World) :
    Safe S.unfinished p site w (fun i => execPart (S.env i) part) fun _ _ => True := by
  cases part with
  | none => exact .pure trivial
  | some s =>
    unfold execPart
    exact .bind (h s (Option.mem_toList.mpr rfl) w) fun _ _ _ _ => .pure trivial

theorem execOtherwise_safe {otherwise : Option (List Stmt)}
    (h : ∀ s ∈ otherwise.getD [], ExecSafe S site s)
    (hloose : ∀ s ∈ otherwise.getD [], s.Loose → loose) (w : World) :
    Safe S.unfinished p site w (fun i => execOtherwise (S.env i) otherwise)
      fun w' flow => FlowTyped p site w'.inner loose flow := by
  cases otherwise with
  | none => exact .pure trivial
  | some block => exact execBlock_safe h hloose w

theorem execArms_safe {arms : List (Expr × List Stmt)} {otherwise : ι → Exec Flow}
    (hconditions : ∀ arm ∈ arms, EvalSafe S site arm.1 ∧ typeOf p arm.1 = .ok .bool)
    (hblocks : ∀ arm ∈ arms, ∀ s ∈ arm.2, ExecSafe S site s)
    (hloose : ∀ arm ∈ arms, ∀ s ∈ arm.2, s.Loose → loose)
    (hotherwise : ∀ w, Safe S.unfinished p site w otherwise
      fun w' flow => FlowTyped p site w'.inner loose flow) (w : World) :
    Safe S.unfinished p site w (fun i => execArms (S.env i) arms (otherwise i))
      fun w' flow => FlowTyped p site w'.inner loose flow := by
  induction arms generalizing w with
  | nil => exact hotherwise w
  | cons arm rest ih =>
    obtain ⟨hcondition, hconditions⟩ := List.forall_mem_cons.mp hconditions
    obtain ⟨hblock, hblocks⟩ := List.forall_mem_cons.mp hblocks
    obtain ⟨harm, hloose⟩ := List.forall_mem_cons.mp hloose
    unfold execArms
    refine .bind (truth_safe (hcondition.1.safe w hcondition.2)) fun w1 b _ _ => ?_
    cases b with
    | true => exact execBlock_safe hblock harm w1
    | false => exact ih hconditions hblocks hloose w1

/-! ### Loops -/

variable {X : Stop → Heap → Prop} {body : ι → Exec Flow}

/-- A loop takes up every `break` and `continue` of its body. -/
theorem repeatWhile_safe (hX : ∀ h, X .exhausted h) {condition : ι → Exec Bool}
    {after : ι → Exec Unit}
    (hcondition : ∀ w, Safe X p site w condition fun _ _ => True)
    (hbody : ∀ w, Safe X p site w body fun w' flow => FlowTyped p site w'.inner True flow)
    (hafter : ∀ w, Safe X p site w after fun _ _ => True) (fuel : Nat) (w : World) :
    Safe X p site w (fun i => repeatWhile (condition i) (body i) (after i) fuel)
      fun w' flow => FlowTyped p site w'.inner loose flow := by
  induction fuel generalizing w with
  | zero => exact .exhausted hX
  | succ fuel ih =>
    unfold repeatWhile
    refine .bind (hcondition w) fun w1 b _ _ => ?_
    cases b with
    | false => exact .pure trivial
    | true =>
      refine .bind (hbody w1) fun w2 flow _ hflow => ?_
      cases flow with
      | brk => exact .pure trivial
      | ret v => exact .pure hflow
      | next => exact .bind (hafter w2) fun w3 _ _ _ => ih w3
      | cont => exact .bind (hafter w2) fun w3 _ _ _ => ih w3

theorem repeatFor_safe {bind : Value → Exec Unit} {item : Ty}
    (hbind : ∀ w v, HasType w.inner v item →
      Safe X p site w (fun _ : ι => bind v) fun _ _ => True)
    (hbody : ∀ w, Safe X p site w body fun w' flow => FlowTyped p site w'.inner True flow)
    {items : List Value} {w : World} (hitems : ∀ v ∈ items, HasType w.inner v item) :
    Safe X p site w (fun i => repeatFor bind (body i) items)
      fun w' flow => FlowTyped p site w'.inner loose flow := by
  induction items generalizing w with
  | nil => exact .pure trivial
  | cons v rest ih =>
    obtain ⟨hv, hrest⟩ := List.forall_mem_cons.mp hitems
    unfold repeatFor
    refine .bind (hbind w v hv) fun w1 _ hle1 _ => ?_
    refine .bind (hbody w1) fun w2 flow hle2 hflow => ?_
    -- the items were taken out before the loop and keep their types whatever the body does
    have hrest : ∀ v ∈ rest, HasType w2.inner v item :=
      fun v hv => (hrest v hv).mono (hle1.inner.trans hle2.inner)
    cases flow with
    | brk => exact .pure trivial
    | ret v => exact .pure hflow
    | next => exact ih hrest
    | cont => exact ih hrest

end Control

/-! ## Assignments -/

section Assign

section Steps

variable {p : Program} {ι : Type} {X : Stop → Heap → Prop} {site : Site} {w : World}

variable {t item : Ty} {v : Value}

theorem assignDefinition_safe {d : Definition} (hd : d.InScope p site)
    (hplace : ∀ id, d ≠ .constant id) (ht : p.definitionType? d = some t)
    (hv : HasType w.inner v t) :
    Safe X p site w (fun _ : ι => assignDefinition d v) fun _ _ => True := by
  cases d with
  | constant id => exact (hplace id rfl).elim
  | argument function i =>
    obtain ⟨q, hq, rfl⟩ := Option.map_eq_some_iff.mp ht
    obtain ⟨g, hg, hi⟩ := Option.bind_eq_some_iff.mp hq
    have htype : (g.parameters.map (·.type))[i]? = some q.type := by
      rw [List.getElem?_map, hi]
      rfl
    unfold assignDefinition
    refine .bind .frame fun w' f hle hf => ?_
    obtain ⟨_, hget, _⟩ := forall₂_getElem? (hf.arguments hd.1 hg) htype
    rw [if_pos (List.getElem?_eq_some_iff.mp hget).1]
    refine .setFrame fun f hf => ⟨hf.receiver, ?_, hf.locals⟩
    intro id g' hid hg'
    cases hd.1.symm.trans hid
    cases hg.symm.trans hg'
    exact forall₂_set (hf.arguments hd.1 hg) htype (hv.mono hle.inner)
  | field model i =>
    obtain ⟨f, hf, rfl⟩ := getField?_of_definitionType? ht
    unfold assignDefinition
    refine .bind (.receiver hd.1) fun w' r hle hr => ?_
    exact .setField hr.2 hf (hv.mono hle.inner)
  | binding id =>
    obtain ⟨l, hl, rfl⟩ := Option.map_eq_some_iff.mp ht
    exact .setLocal hl hv

theorem pushTo_safe {container : Value} (hc : HasType w.inner container (.list item))
    (hv : HasType w.inner v item) :
    Safe X p site w (fun _ : ι => pushTo container v) fun _ _ => True := by
  cases hc with
  | null _ => exact .fault (.nullGot "list")
  | list ha =>
    unfold pushTo
    refine .change fun τ heap hτ hheap => ?_
    exact hheap.pushItem (hτ.lists _ _ ha) (hv.mono hτ)

theorem iterationItems_safe {kind : IterableKind} (ht : iterableKind p t = .ok (kind, item))
    (hv : HasType w.inner v t) :
    Safe X p site w (fun _ : ι => iterationItems v)
      fun w' items => ∀ v ∈ items, HasType w'.inner v item := by
  obtain ⟨rfl, _⟩ | ⟨rfl, _⟩ := iterableKind_eq_ok.mp ht
  · cases hv with
    | null _ => exact .fault (.nullGot "list or set")
    | list ha => exact .bind (.lookList ha) fun _ _ _ hitems => .pure hitems.mem_toList
  · cases hv with
    | null _ => exact .fault (.nullGot "list or set")
    | set ha => exact .bind (.lookSet ha) fun _ _ _ hitems => .pure hitems.mem_toList

end Steps

variable {p : Program} {ι : Type} {S : Setting p ι} {site : Site} {w : World} {v : Value}

theorem assignElement_safe {container key : Value} {tc tk output : Ty} {kind : LookupKind}
    (hkey : S.comparable tk) (ht : lookupType p tc tk = .ok (kind, output))
    (hkind : kind ≠ .string) (hc : HasType w.inner container tc) (hk : HasType w.inner key tk)
    (hv : HasType w.inner v output) :
    Safe S.unfinished p site w (fun i => assignElement (S.env i) container key v)
      fun _ _ => True := by
  obtain ⟨rfl, rfl, _⟩ | ⟨rfl, _⟩ | ⟨_, _, hstring, _⟩ := lookupType_eq_ok.mp ht
  · cases hc with
    | null _ => exact .fault (.nullGot "list or map")
    | @list a _ ha =>
      unfold assignElement
      refine .bind (asInt_safe hk) fun w1 index hle1 _ => ?_
      refine .bind (.lookList (hle1.inner.lists _ _ ha)) fun w2 items hle2 _ => ?_
      refine .bind (checkedIndex_safe index items.size) fun w3 slot hle3 _ => ?_
      have hle := (hle1.inner.trans hle2.inner).trans hle3.inner
      refine .change fun τ heap hτ hheap => ?_
      exact hheap.setItem ((hle.trans hτ).lists _ _ ha) (hv.mono (hle.trans hτ)) slot
  · cases hc with
    | null _ => exact .fault (.nullGot "list or map")
    | map ha => exact putEntry_safe S hkey ha hk hv
  · exact (hkind hstring).elim

/-- The parts of a place are evaluated again, after the value. -/
theorem assign_safe {place : Expr} {t : Ty} (hplace : place.IsPlace)
    (hs : Expr.Sound p site place) (hparts : ∀ e ∈ place.children, EvalSafe S site e)
    (ht : typeOf p place = .ok t) (hv : HasType w.inner v t) :
    Safe S.unfinished p site w (fun i => assign (S.env i) place v) fun _ _ => True := by
  obtain ⟨⟨htyped, hagrees⟩, hscope⟩ := hs
  obtain rfl : t = place.stated := Except.ok.inj (ht.symm.trans htyped)
  cases place with
  | var definition output => exact assignDefinition_safe hscope.1 hplace hagrees hv
  | property receiver field output =>
    obtain ⟨f, hf, rfl⟩ := getField?_of_definitionType? hagrees.2
    unfold assign
    refine .bind ((List.forall_mem_singleton.mp hparts).safe w hagrees.1) fun w1 r hle hr => ?_
    cases hr with
    | null _ => exact .fault .nullDereference
    | object ha => exact .setField ha hf (hv.mono hle.inner)
  | lookup container key kind output =>
    obtain ⟨tc, tk, hc, hk, hlookup⟩ := hagrees
    obtain ⟨hcontainer, hkey⟩ := List.forall_mem_cons.mp hparts
    have hkey := List.forall_mem_singleton.mp hkey
    unfold assign
    refine .bind (hcontainer.safe w hc) fun w1 c hle1 htc => ?_
    refine .bind (hkey.safe w1 hk) fun w2 k hle2 htk => ?_
    exact assignElement_safe (hkey.comparable hk) hlookup hplace (htc.mono hle2.inner) htk
      (hv.mono (hle1.inner.trans hle2.inner))
  | _ => exact hplace.elim

end Assign

/-! ## Statements -/

/-- A call as a statement drops the value of the call. -/
theorem exec_call (env : Env) (receiver : Option Expr) (arguments : List Expr)
    (function : FunctionId) (t : Ty) : exec env (.call receiver arguments function t) =
      eval env (.call receiver arguments function t) >>= fun _ => pure .next := by
  unfold exec eval
  simp only [bind_assoc]

/-- What a statement asks of the environments besides its parts: a call asks for its function, and
a `for` for all its turns. -/
structure Stmt.Served {p : Program} {ι : Type} (S : Setting p ι) (site : Site) (s : Stmt) :
    Prop where
  operands : ∀ e ∈ s.operands, e.All (Expr.Served S site)
  call : ∀ {receiver arguments id t},
    s = .call receiver arguments id t → FunctionSafe S id
  loop : ∀ {start condition after body},
    s = .forLoop start condition after body → EvalSafe S site condition →
      (∀ t ∈ s.children, ExecSafe S site t) → ExecSafe S site s

variable {p : Program} {ι : Type} {S : Setting p ι} {site : Site} {s : Stmt} {env : Env}
  {σ σ' : State} {w : World} {callable : Callable} {t : Ty}

/-- Execution of a sound statement is safe. The induction goes over the statements inside the
statement. -/
theorem exec_safe (hsite : site.callable.isSome) (hs : s.All (Stmt.Sound p site))
    (hserved : s.All (Stmt.Served S site)) : ExecSafe S site s := by
  induction hs with
  | @intro s here _ ih =>
    obtain ⟨hserved, hbelow⟩ := hserved
    have ih (t : Stmt) (ht : t ∈ s.children) : ExecSafe S site t := ih t ht (hbelow t ht)
    obtain ⟨hagrees, hscope, hoperands⟩ := here
    have heval (e : Expr) (he : e ∈ s.operands) : EvalSafe S site e :=
      eval_safe (hoperands e he) (hserved.operands e he)
    intro w
    cases s with
    | declare id value =>
      obtain ⟨l, hl, _, ht⟩ := hscope
      unfold exec
      refine .bind ((heval value List.mem_cons_self).safe w ht) fun w1 v _ hv => ?_
      exact .bind (.setLocal hl hv) fun _ _ _ _ => .pure trivial
    | assign place value =>
      obtain ⟨hplace, t, htp, htv⟩ := hagrees
      have hsound := hoperands place List.mem_cons_self
      have hplaceServed := hserved.operands place List.mem_cons_self
      unfold exec
      refine .bind ((heval value (List.mem_cons_of_mem _ List.mem_cons_self)).safe w htv) ?_
      intro w1 v _ hv
      refine .bind (assign_safe hplace hsound.root (fun e he => ?_) htp hv)
        fun _ _ _ _ => .pure trivial
      exact eval_safe (hsound.inner he) (hplaceServed.inner he)
    | conditional arms otherwise =>
      have hotherwise : ∀ t ∈ otherwise.getD [], ExecSafe S site t :=
        fun t ht => ih t (List.mem_append_right _ ht)
      unfold exec
      refine execArms_safe ?_ ?_ ?_ (execOtherwise_safe hotherwise ?_) w
      · intro arm harm
        exact ⟨heval arm.1 (List.mem_map.mpr ⟨arm, harm, rfl⟩), hagrees arm harm⟩
      · intro arm harm t ht
        exact ih t (List.mem_append_left _ (List.mem_flatMap.mpr ⟨arm, harm, ht⟩))
      · exact fun arm harm t ht hloose => .arm harm ht hloose
      · intro t ht hloose
        cases otherwise with
        | none => cases ht
        | some block => exact .otherwise ht hloose
    | forLoop start condition after body =>
      exact hserved.loop rfl (heval condition List.mem_cons_self) ih w
    | forEach item iterable kind itemType body =>
      obtain ⟨t, ht, hkind⟩ := hagrees
      obtain ⟨_, l, hl, _, rfl⟩ := hscope
      unfold exec
      refine .bind ((heval iterable List.mem_cons_self).safe w ht) fun w1 v _ hv => ?_
      refine .bind (iterationItems_safe hkind hv) fun w2 items _ hitems => ?_
      refine repeatFor_safe (fun w v hv => .setLocal hl hv) (fun w => ?_) hitems
      exact execBlock_safe ih (fun _ _ _ => trivial) w
    | ret value callable =>
      obtain ⟨t, ht, hvalue⟩ := hagrees
      cases value with
      | none =>
        cases hvalue
        exact .pure ⟨callable, _, hscope, ht, .void⟩
      | some e =>
        unfold exec
        refine .bind ((heval e List.mem_cons_self).safe w hvalue) fun w1 v _ hv => ?_
        exact .pure ⟨callable, t, hscope, ht, hv⟩
    | brk => exact .pure .brk
    | cont => exact .pure .cont
    | add container value =>
      obtain ⟨item, hc, hv⟩ := hagrees
      have hvalue := heval value (List.mem_cons_of_mem _ List.mem_cons_self)
      unfold exec
      refine .bind ((heval container List.mem_cons_self).safe w hc) fun w1 c _ htc => ?_
      refine .bind (hvalue.safe w1 hv) fun w2 v hle htv => ?_
      exact .bind (addToSet_safe S (hvalue.comparable hv) (htc.mono hle.inner) htv)
        fun _ _ _ _ => .pure trivial
    | push container value =>
      obtain ⟨item, hc, hv⟩ := hagrees
      unfold exec
      refine .bind ((heval container List.mem_cons_self).safe w hc) fun w1 c _ htc => ?_
      refine .bind ((heval value (List.mem_cons_of_mem _ List.mem_cons_self)).safe w1 hv) ?_
      intro w2 v hle htv
      exact .bind (pushTo_safe (htc.mono hle.inner) htv) fun _ _ _ _ => .pure trivial
    | pop container =>
      obtain ⟨item, hc⟩ := hagrees
      unfold exec
      refine .bind ((heval container List.mem_cons_self).safe w hc) fun w1 c _ htc => ?_
      exact .bind (.popList htc) fun _ _ _ _ => .pure trivial
    | call receiver arguments function t =>
      simp only [exec_call]
      unfold eval
      refine .bind (evalCall_safe hagrees hsite ?_ ?_ (hserved.call rfl) w)
        fun _ _ _ _ => .pure trivial
      · exact fun e he => heval e (List.mem_append_left _ he)
      · exact fun e he => heval e (List.mem_append_right _ he)

/-- A single environment serves all statements. -/
theorem EnvSafe.servesStmt (henv : EnvSafe p env) (hp : p.Sound) (hs : Stmt.Sound p site s) :
    Stmt.Served (henv.setting hp) site s := by
  obtain ⟨hagrees, _, hoperands⟩ := hs
  refine ⟨fun e he => (hoperands e he).imp fun _ => henv.serves hp,
    fun _ => henv.function hp _, ?_⟩
  rintro start condition after body rfl hcondition hparts w
  unfold exec
  refine .bind (execPart_safe (fun t ht => hparts t (List.mem_append_left _ ht)) w) ?_
  intro w1 _ _ _
  -- `break` and `continue` are taken up here, so the body may be loose
  refine repeatWhile_safe (fun _ _ _ => by rintro ⟨⟩) (fun w => ?_) (fun w => ?_) (fun w => ?_)
    env.fuel w1
  · exact truth_safe (hcondition.safe w hagrees)
  · refine execBlock_safe (fun t ht => hparts t ?_) (fun _ _ _ => trivial) w
    exact List.mem_append_right _ (List.mem_append_right _ ht)
  · refine execPart_safe (fun t ht => hparts t ?_) w
    exact List.mem_append_right _ (List.mem_append_left _ ht)

/-! ## Bodies -/

theorem exec_return_ne_next (h : s.isReturn = true) : exec env s σ ≠ .ok .next σ' := by
  intro hrun
  cases s with
  | ret value callable =>
    cases value with
    | none =>
      obtain ⟨hflow, _⟩ := Step.pure_eq_ok.mp hrun
      cases hflow
    | some e =>
      unfold exec at hrun
      obtain ⟨v, σ1, _, hpure⟩ := Step.bind_eq_ok.mp hrun
      obtain ⟨hflow, _⟩ := Step.pure_eq_ok.mp hpure
      cases hflow
  | _ => cases h

/-- A block that ends in a return does not come to its end: control leaves it before, on any path
and in any state. -/
theorem execBlock_ne_next {block : Block} (h : block.getLast?.any Stmt.isReturn = true) :
    execBlock env block σ ≠ .ok .next σ' := by
  intro hrun
  induction block generalizing σ with
  | nil => cases h
  | cons s rest ih =>
    unfold execBlock at hrun
    obtain ⟨flow, σ1, hexec, hrest⟩ := Step.bind_eq_ok.mp hrun
    cases flow with
    | next =>
      cases rest with
      | nil => exact exec_return_ne_next h hexec
      | cons t rest => exact ih (by rw [List.getLast?_cons_cons] at h; exact h) hrest
    | brk | cont | ret v =>
      obtain ⟨hflow, _⟩ := Step.pure_eq_ok.mp hrest
      cases hflow

/-- What a complete body gives to its caller has the type that the callable returns. -/
theorem flowResult_safe {X : Stop → Heap → Prop} {flow : Flow} (name : String)
    (hsite : site.callable = some callable) (ht : p.callableReturnType? callable = some t)
    (hflow : FlowTyped p site w.inner False flow) (hnext : flow = .next → t = .void) :
    Safe X p site w (fun _ : ι => flowResult name flow) fun w' v => HasType w'.inner v t := by
  cases flow with
  | next =>
    rw [hnext rfl]
    exact .pure .void
  | brk => exact hflow.elim
  | cont => exact hflow.elim
  | ret v =>
    obtain ⟨callable', t', hcallable, ht', hv⟩ := hflow
    cases hsite.symm.trans hcallable
    cases ht.symm.trans ht'
    exact .pure hv

/-- The result of a body does not depend on its frame being there still. -/
theorem withFrame_flowResult (name : String) (f : Frame) (act : Exec Flow) :
    Exec.withFrame f act >>= flowResult name = Exec.withFrame f (act >>= flowResult name) := by
  funext s
  cases hact : act { s with frames := f :: s.frames } with
  | ok flow s' =>
    have hleft : (Exec.withFrame f act >>= flowResult name) s =
        flowResult name flow { s' with frames := s'.frames.tail } := by
      simp only [bind, EStateM.bind, Exec.withFrame, hact]
    have hright : (act >>= flowResult name) { s with frames := f :: s.frames } =
        flowResult name flow s' := by
      simp only [bind, EStateM.bind, hact]
    rw [hleft, Exec.withFrame, hright]
    cases flow <;> rfl
  | error stop s' => simp only [bind, EStateM.bind, Exec.withFrame, hact]

/-- A body that runs safely gives its caller a value of the type that its callable returns. -/
theorem body_safe [Nonempty ι] (hp : p.Sound) {body : Block} (name : String)
    (hbody : p.body? callable = some body) (ht : p.callableReturnType? callable = some t)
    {frame : Frame} (hframe : FrameTyped p (some callable) w.inner frame)
    (hexec : ∀ s ∈ body, ExecSafe S (.ofBody p callable body) s) :
    Calls S.unfinished p w
      (fun i => Exec.withFrame frame (execBlock (S.env i) body) >>= flowResult name)
      fun w' v => HasType w'.inner v t := by
  have hcomplete := hp.bodies hbody
  have hsite : (Site.ofBody p callable body).callable.isSome := rfl
  simp only [withFrame_flowResult]
  refine .withFrame hsite hframe fun s hs => ?_
  refine (execBlock_safe hexec hcomplete.control w s hs).bind fun w1 flow s1 hrun hk hflow => ?_
  refine flowResult_safe name rfl ht hflow (fun hnext => ?_) s1 hk.ready
  -- a body that has to give a value ends in a return
  obtain ⟨t', ht', hvoid | hreturn⟩ := hcomplete.returns
  · rw [← hvoid]
    exact Option.some.inj (ht.symm.trans ht')
  · obtain ⟨i⟩ := ‹Nonempty ι›
    exact (execBlock_ne_next hreturn (hnext ▸ hrun i)).elim

/-- Calls are safe, however deep they may go. -/
theorem ofFuel_safe (hp : p.Sound) (fuel : Nat) : EnvSafe p (.ofFuel p fuel) := by
  induction fuel with
  | zero =>
    refine ⟨rfl, fun _ _ _ _ s hs => ?_⟩
    exact .error (fun _ => rfl) ⟨⟨.exhausted, fun _ _ _ => by rintro ⟨⟩⟩, _, .refl _, hs, rfl, rfl⟩
  | succ fuel ih =>
    refine ⟨rfl, fun name hbody ht hframe => ?_⟩
    refine body_safe (S := ih.setting hp) hp name hbody ht hframe fun s hs => ?_
    have hsound := (hp.bodies hbody).sound s hs
    exact exec_safe rfl hsound (hsound.imp fun _ => ih.servesStmt hp)

end Scribe.Machine
