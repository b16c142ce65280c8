import Scribe.Proofs.OrderIndependence

/-!
# How much work a module leaves

The queue always gets empty, or a piece of work fails. `Works c ds n r` says which, and that `n`
pieces are run until then. If none fails, `n` is known from the module: one piece for each free
function, each model, each method and each override (`pieces`).

A limit on the number of pieces does not change what the pieces do. It only ends the work early, with
an error of its own, and it does so exactly if more pieces would be run than it allows
(`lower_limited`).
-/

namespace Scribe.Lowering

open Scribe.Core

/-! ## One piece of work -/

variable {c : Context} {e : LowerError} {ds : List Deferred} {n : Nat} {r : Checked Program}
  {m : Syntax.Module} {work : List Deferred}

variable {α : Type} {f : Program → Checked α} {d : Deferred} {c' : Context} {limit : Option Nat}
  {k : Nat} {p : Program}

theorem Lower.check_of_ok {a : α} (h : f c.program = .ok a) : Lower.check f c = .ok a c := by
  rw [Lower.check, h]

theorem Lower.check_of_error (h : f c.program = .error e) : Lower.check f c = .error e c := by
  rw [Lower.check, h]

/-- Runs a piece of work and gives the work that it leaves. -/
def Deferred.run (d : Deferred) : Lower (List Deferred) :=
  Lower.inScope d.scope <| match d.work with
    | .body b => do
      runBody b
      return []
    | .members id m => do
      let bodies ← memberBodies id m
      return deferBodies d.scope bodies

theorem Lower.inScope_bind_pure {β : Type} (scope : Scope) (act : Lower α) (f : α → β) :
    Lower.inScope scope (do return f (← act)) = (do return f (← Lower.inScope scope act)) := by
  funext c
  cases hact : act { c with scope } with
  | ok a c' =>
    have hin : Lower.inScope scope act c = .ok a { c' with scope := c.scope } := by
      rw [Lower.inScope, hact]
    rw [Step.bind_of_ok hin, Lower.inScope, Step.bind_of_ok hact]
    rfl
  | error e c' =>
    have hin : Lower.inScope scope act c = .error e { c' with scope := c.scope } := by
      rw [Lower.inScope, hact]
    rw [Step.bind_of_error hin, Lower.inScope, Step.bind_of_error hact]

theorem drain_nil (limit : Option Nat) (n : Nat) : drain limit ⟨[], n⟩ = pure ⟨[], n⟩ :=
  drain_of_none rfl

/-- The first piece of a queue is counted, run and followed by the rest and what it leaves. -/
theorem drain_cons (limit : Option Nat) (d : Deferred) (rest : List Deferred) (n : Nat) :
    drain limit ⟨d :: rest, n⟩ = (do
      Lower.check fun _ => checkLimit limit (n + 1)
      let ds ← d.run
      drain limit ⟨rest ++ ds, n + 1⟩) := by
  obtain ⟨scope, work⟩ := d
  cases work with
  | body b =>
    rw [drain_of_body rfl, Deferred.run, Lower.inScope_bind_pure]
    simp only [bind_assoc, pure_bind, List.append_nil]
  | members id m =>
    rw [drain_of_members rfl, Deferred.run, Lower.inScope_bind_pure]
    simp only [bind_assoc, pure_bind]
    rfl

/-! ## All pieces -/

/-- `Works c ds n r` says that the work `ds` is run in `c` until the queue is empty or a piece of work
fails. `n` pieces are run, the one that fails is the last of them, and `r` is what comes out. -/
inductive Works : Context → List Deferred → Nat → Checked Program → Prop where
  | done {c : Context} : Works c [] 0 (.ok c.program)
  | fails {c c' : Context} {d : Deferred} {rest : List Deferred} {e : LowerError}
      (hrun : d.run c = .error e c') : Works c (d :: rest) 1 (.error e)
  | step {c c' : Context} {d : Deferred} {rest ds : List Deferred} {n : Nat} {r : Checked Program}
      (hrun : d.run c = .ok ds c') (hrest : Works c' (rest ++ ds) n r) :
      Works c (d :: rest) (n + 1) r

theorem Deferred.countP_run {c : Context} (h : d.run c = .ok ds c') :
    ds.countP (·.work.isMembers) = 0 ∧
      (d.work.isMembers = false → ds = []) := by
  obtain ⟨scope, work⟩ := d
  cases work with
  | body b =>
    simp only [run, Lower.inScope_eq_ok, Step.bind_eq_ok, Step.pure_eq_ok] at h
    obtain ⟨_, ⟨_, _, _, rfl, _⟩, _⟩ := h
    exact ⟨rfl, fun _ => rfl⟩
  | members id m =>
    simp only [run, Lower.inScope_eq_ok, Step.bind_eq_ok, Step.pure_eq_ok] at h
    obtain ⟨_, ⟨_, _, _, rfl, _⟩, _⟩ := h
    exact ⟨countP_deferBodies _ _, by rintro ⟨⟩⟩

/-- Work always comes to an end: members bring bodies, and bodies bring nothing. -/
theorem exists_works (c : Context) (ds : List Deferred) : ∃ n r, Works c ds n r := by
  -- each step takes members off the queue, or leaves as many members and a shorter queue
  induction hk : ds.countP (·.work.isMembers) using Nat.strong_induction_on generalizing c ds with
  | h k ih =>
    induction ds generalizing c with
    | nil => exact ⟨0, _, .done⟩
    | cons d rest ihrest =>
      cases hrun : d.run c with
      | error e c' => exact ⟨1, _, .fails hrun⟩
      | ok ds c' =>
        obtain ⟨hcount, hbody⟩ := Deferred.countP_run hrun
        cases hmembers : d.work.isMembers with
        | false =>
          have hds := hbody hmembers
          subst hds
          have hrest : rest.countP (·.work.isMembers) = k := by
            rw [List.countP_cons, hmembers] at hk
            exact hk
          obtain ⟨n, r, hworks⟩ := ihrest c' hrest
          refine ⟨n + 1, r, .step hrun ?_⟩
          rw [List.append_nil]
          exact hworks
        | true =>
          have hlt : (rest ++ ds).countP (·.work.isMembers) < k := by
            rw [List.countP_cons, hmembers, if_pos rfl] at hk
            rw [List.countP_append, hcount]
            omega
          obtain ⟨n, r, hworks⟩ := ih _ hlt c' (rest ++ ds) rfl
          exact ⟨n + 1, r, .step hrun hworks⟩

/-! ## Limits -/

/-- The program that a computation leaves, or its error. -/
def outcome {α : Type} : EStateM.Result LowerError Context α → Checked Program
  | .ok _ c => .ok c.program
  | .error e _ => .error e

theorem checkLimit_some (k n : Nat) : checkLimit (some k) n =
    if n ≤ k then .ok () else .error (.structural (.tooManyDeferred k)) := by
  by_cases h : n ≤ k
  · rw [checkLimit, if_neg (by omega), if_pos h]
  · rw [checkLimit, if_pos (by omega), if_neg h]

theorem checkLimit_eq_error {n n' : Nat} (h : checkLimit limit n = .error e) (hle : n ≤ n') :
    checkLimit limit n' = .error e := by
  cases limit with
  | none => cases h
  | some k =>
    rw [checkLimit_some] at h ⊢
    by_cases hn : n ≤ k
    · rw [if_pos hn] at h
      cases h
    · rw [if_neg hn] at h
      rw [if_neg (by omega)]
      exact h

/-- Work in a queue from which `k` pieces were taken before. The limit decides how it ends, if it is
less than what is run in all. -/
theorem Works.outcome_drain (h : Works c ds n r) (hk : checkLimit limit k = .ok ()) :
    outcome (drain limit ⟨ds, k⟩ c) = (do checkLimit limit (k + n); r) := by
  induction h generalizing k with
  | done =>
    rw [drain_nil, Nat.add_zero, hk]
    rfl
  | @fails c c' d rest e hrun =>
    cases hnext : checkLimit limit (k + 1) with
    | error e' =>
      rw [drain_cons, Step.bind_of_error (Lower.check_of_error hnext)]
      rfl
    | ok _ =>
      rw [drain_cons, Step.bind_of_ok (Lower.check_of_ok hnext), Step.bind_of_error hrun]
      rfl
  | @step c c' d rest ds n r hrun hrest ih =>
    cases hnext : checkLimit limit (k + 1) with
    | error e' =>
      rw [drain_cons, Step.bind_of_error (Lower.check_of_error hnext),
        checkLimit_eq_error hnext (by omega)]
      rfl
    | ok _ =>
      rw [drain_cons, Step.bind_of_ok (Lower.check_of_ok hnext), Step.bind_of_ok hrun, ih hnext]
      rw [show k + 1 + n = k + (n + 1) by omega]

/-- Without a limit, the queue counts the pieces that are run. -/
theorem Works.drain_none (h : Works c ds n (.ok p)) (k : Nat) :
    ∃ c', drain none ⟨ds, k⟩ c = .ok ⟨[], k + n⟩ c' ∧ c'.program = p := by
  generalize hr : (.ok p : Checked Program) = r at h
  induction h generalizing k with
  | @done c =>
    cases hr
    exact ⟨c, by rw [drain_nil]; rfl, rfl⟩
  | fails hrun => cases hr
  | @step c c1 d rest ds n r hrun hrest ih =>
    obtain ⟨c', hdrain, hprogram⟩ := ih (k + 1) hr
    refine ⟨c', ?_, hprogram⟩
    have hcheck : Lower.check (fun _ => checkLimit none (k + 1)) c = .ok () c := rfl
    rw [drain_cons, Step.bind_of_ok hcheck, Step.bind_of_ok hrun, hdrain]
    rw [show k + 1 + n = k + (n + 1) by omega]

/-! ## Counting -/

/-- The number of pieces that some work comes to: members of a model are one, and bring one for each
method and each override. -/
def Work.pieces : Work → Nat
  | .body _ => 1
  | .members _ m =>
    1 + m.methods.length + m.equality.toList.length + m.hashing.toList.length

/-- The number of pieces of all work of a module. -/
def pieces (m : Syntax.Module) : Nat :=
  m.functions.length + m.models.length + (m.models.map (·.methods.length)).sum +
    m.models.countP (·.equality.isSome) + m.models.countP (·.hashing.isSome)

theorem sum_pieces_deferBodies (scope : Scope) (bodies : List FramedBody) :
    ((deferBodies scope bodies).map (·.work.pieces)).sum = bodies.length := by
  induction bodies with
  | nil => rfl
  | cons x bodies ih =>
    have hx : ((deferBodies scope (x :: bodies)).map (·.work.pieces)).sum =
        1 + ((deferBodies scope bodies).map (·.work.pieces)).sum := rfl
    rw [hx, ih, List.length_cons]
    omega

theorem length_methodBodies {model : Model} {m : Syntax.Model}
    (h : model.methods.length = m.methods.length) :
    (methodBodies model m).length = m.methods.length := by
  rw [methodBodies, List.length_map, List.length_zip, List.length_map, h, Nat.min_self]

/-- A piece of work that can be run leaves the rest of its pieces. -/
theorem Pending.run {c : Context} {rest ds : List Deferred} (h : Pending c.program (d :: rest))
    (hrun : d.run c = .ok ds c') :
    Pending c'.program (rest ++ ds) ∧ d.work.pieces = 1 + (ds.map (·.work.pieces)).sum := by
  obtain ⟨scope, work⟩ := d
  cases work with
  | body b =>
    simp only [Deferred.run, Lower.inScope_eq_ok, Step.bind_eq_ok, Step.pure_eq_ok] at hrun
    obtain ⟨_, ⟨_, _, hbody, rfl, rfl⟩, rfl⟩ := hrun
    have hrest : Pending _ rest := h.runBody hbody
    rw [List.append_nil]
    exact ⟨hrest, rfl⟩
  | members id m =>
    simp only [Deferred.run, Lower.inScope_eq_ok, Step.bind_eq_ok, Step.pure_eq_ok] at hrun
    obtain ⟨_, ⟨bodies, _, hbodies, rfl, rfl⟩, rfl⟩ := hrun
    have hrest : Pending _ (rest ++ deferBodies scope bodies) := h.memberBodies hbodies
    refine ⟨hrest, ?_⟩
    obtain ⟨_, hready⟩ : scope = [.model id, .program] ∧ MembersReady c.program id m :=
      h.ready _ List.mem_cons_self
    obtain ⟨model, hmodel, hlength, _⟩ := hready.methods
    obtain ⟨_, rfl, _⟩ := (memberBodies_eq_ok (c := ⟨c.program, scope⟩) hmodel).mp hbodies
    rw [sum_pieces_deferBodies, List.length_append, length_methodBodies hlength, overrideBodies,
      List.length_append, List.length_map, List.length_map, Work.pieces]
    omega

/-- Work that does not fail runs all its pieces, and work that fails runs some of them. -/
theorem Works.pieces (h : Works c ds n r) (hp : Pending c.program ds) :
    (∀ p, r = .ok p → n = (ds.map (·.work.pieces)).sum) ∧
      ∀ e, r = .error e → 0 < n ∧ n ≤ (ds.map (·.work.pieces)).sum := by
  induction h with
  | done => exact ⟨fun _ _ => rfl, by rintro _ ⟨⟩⟩
  | @fails c c' d rest e hrun =>
    have hpos : 0 < d.work.pieces := by
      cases d.work with
      | body _ => exact Nat.one_pos
      | members _ m =>
        rw [Work.pieces]
        omega
    refine ⟨by rintro _ ⟨⟩, fun _ _ => ⟨Nat.one_pos, ?_⟩⟩
    rw [List.map_cons, List.sum_cons]
    omega
  | @step c c' d rest ds n r hrun hrest ih =>
    obtain ⟨hpending, hpieces⟩ := hp.run hrun
    obtain ⟨hok, herror⟩ := ih hpending
    rw [List.map_append, List.sum_append] at hok herror
    rw [List.map_cons, List.sum_cons, hpieces]
    refine ⟨fun p hr => ?_, fun e hr => ⟨Nat.succ_pos n, ?_⟩⟩
    · rw [hok p hr]
      omega
    · have hle := (herror e hr).2
      omega

theorem sum_pieces_functionWork (n : Nat) (fs : List Syntax.Function) :
    ((functionWork n fs).map (·.work.pieces)).sum = fs.length := by
  induction fs generalizing n with
  | nil => rfl
  | cons f fs ih =>
    rw [functionWork, List.map_cons, List.sum_cons, ih, List.length_cons]
    show 1 + _ = _
    omega

theorem length_toList_eq (x : Option α) : x.toList.length = x.isSome.toNat := by
  cases x <;> rfl

theorem sum_pieces_models (mds : List Syntax.Model) :
    (mds.map fun md => (Work.members ⟨0⟩ md).pieces).sum =
      mds.length + (mds.map (·.methods.length)).sum + mds.countP (·.equality.isSome) +
        mds.countP (·.hashing.isSome) := by
  induction mds with
  | nil => rfl
  | cons md mds ih =>
    rw [List.map_cons, List.sum_cons, ih, List.map_cons, List.sum_cons, List.length_cons,
      List.countP_cons, List.countP_cons, Work.pieces, length_toList_eq, length_toList_eq]
    cases md.equality <;> cases md.hashing <;> simp <;> omega

theorem sum_pieces_declaredWork (m : Syntax.Module) :
    ((declaredWork m).map (·.work.pieces)).sum = pieces m := by
  have hmodels : ((numbered m.models).map fun x => (Deferred.ofModel x.1 x.2).work.pieces) =
      m.models.map fun md => (Work.members ⟨0⟩ md).pieces := by
    conv => rhs; rw [← map_snd_numbered m.models, List.map_map]
    rfl
  rw [declaredWork, List.map_append, List.sum_append, sum_pieces_functionWork, List.map_map]
  show _ + ((numbered m.models).map fun x => (Deferred.ofModel x.1 x.2).work.pieces).sum = _
  rw [hmodels, sum_pieces_models, Lowering.pieces]
  omega

/-! ## Modules -/

/-- What lowering begins with. -/
def Context.start (m : Syntax.Module) : Context :=
  ⟨{ name := m.name }, []⟩

/-- Everything that lowering does before it runs work. -/
def declareModule (m : Syntax.Module) : Lower (List Deferred) := do
  Lower.check fun _ => checkTypeName m.name
  declareAll m

theorem declareModule_eq_ok :
    declareModule m (.start m) = .ok work c ↔ checkTypeName m.name = .ok () ∧
      ∃ ts, Declares m ts ∧ work = declaredWork m ∧ c = ⟨declaredProgram m ts, []⟩ := by
  unfold declareModule
  simp only [Step.bind_eq_ok, Lower.check_eq_ok]
  constructor
  · rintro ⟨_, _, ⟨hname, rfl⟩, hdeclare⟩
    exact ⟨hname, declareAll_eq_ok.mp hdeclare⟩
  · rintro ⟨hname, hdeclare⟩
    exact ⟨(), _, ⟨hname, rfl⟩, declareAll_eq_ok.mpr hdeclare⟩

theorem lower_eq (m : Syntax.Module) (limit : Option Nat) :
    lower m limit = outcome ((do
      let work ← declareModule m
      drain limit { items := work }) (.start m)) := by
  have hrun : lowerModule limit m = (do
      let _ ← (do
        let work ← declareModule m
        drain limit { items := work })
      return ()) := by
    simp only [lowerModule, declareModule, bind_assoc]
  have hlower : lower m limit = outcome (lowerModule limit m (.start m)) := by
    unfold lower
    show _ = outcome (lowerModule limit m ⟨{ name := m.name }, []⟩)
    cases lowerModule limit m ⟨{ name := m.name }, []⟩ <;> rfl
  rw [hlower, hrun]
  cases hall : (do
      let work ← declareModule m
      drain limit { items := work } : Lower Queue) (.start m) with
  | ok q c =>
    rw [Step.bind_of_ok hall]
    rfl
  | error e c =>
    rw [Step.bind_of_error hall]
    rfl

/-- No limit matters if the declarations fail. -/
theorem lower_of_declareModule_error (h : declareModule m (.start m) = .error e c)
    (limit : Option Nat) : lower m limit = .error e := by
  rw [lower_eq, Step.bind_of_error h]
  rfl

/-- Declaring a module leaves work that can be run. -/
theorem declareModule_pending (h : declareModule m (.start m) = .ok work c) :
    Pending c.program work ∧ (work.map (·.work.pieces)).sum = pieces m := by
  obtain ⟨_, ts, hdeclares, rfl, rfl⟩ := declareModule_eq_ok.mp h
  exact ⟨hdeclares.pending, sum_pieces_declaredWork m⟩

theorem Works.lower (h : Works c work n r) (hdeclare : declareModule m (.start m) = .ok work c)
    (limit : Option Nat) : Lowering.lower m limit = (do checkLimit limit n; r) := by
  have hzero : checkLimit limit 0 = .ok () := by
    cases limit with
    | none => rfl
    | some k => rw [checkLimit_some, if_pos (Nat.zero_le k)]
  rw [lower_eq, Step.bind_of_ok hdeclare, h.outcome_drain hzero, Nat.zero_add]

/-- A module that is lowered without a limit is lowered under every limit that is large enough, and
under no other. -/
theorem lower_some_eq_ok : lower m (some k) = .ok p ↔ lower m none = .ok p ∧ pieces m ≤ k := by
  cases hdeclare : declareModule m (.start m) with
  | error e c =>
    rw [lower_of_declareModule_error hdeclare, lower_of_declareModule_error hdeclare]
    exact ⟨by rintro ⟨⟩, by rintro ⟨⟨⟩, _⟩⟩
  | ok work c =>
    obtain ⟨hpending, hsum⟩ := declareModule_pending hdeclare
    obtain ⟨n, r, hworks⟩ := exists_works c work
    have hpieces := (hworks.pieces hpending).1
    rw [hsum] at hpieces
    have hnone : lower m none = r := hworks.lower hdeclare none
    rw [hworks.lower hdeclare, hnone, checkLimit_some]
    by_cases hk : n ≤ k
    · rw [if_pos hk]
      refine ⟨fun h => ⟨h, ?_⟩, fun h => h.1⟩
      rw [← hpieces p h]
      exact hk
    · rw [if_neg hk]
      refine ⟨by rintro ⟨⟩, fun h => absurd ?_ hk⟩
      rw [hpieces p h.1]
      exact h.2

/-- Lowering ends, and a limit on the pieces of work counts exactly.

If a module cannot be declared, every limit gives the same error. Otherwise its work ends after `n`
pieces with a result `r`, which is what lowering gives without a limit. With a limit `k`, lowering
gives `r` too if `n ≤ k`, and says that `k` is too little if not. If no piece fails, then `n` is the
number of free functions, models, methods and overrides of the module, and the queue has counted so
many. If one fails, it is the last of the `n`. -/
theorem lower_limited (m : Syntax.Module) :
    (∀ {e c}, declareModule m (.start m) = .error e c → ∀ limit, lower m limit = .error e) ∧
    (∀ {work c}, declareModule m (.start m) = .ok work c →
      ∃ n r, Works c work n r ∧ lower m none = r ∧
        (∀ k, lower m (some k) =
          if n ≤ k then r else .error (.structural (.tooManyDeferred k))) ∧
        (∀ p, r = .ok p → n = pieces m ∧
          ∃ c', drain none { items := work } c = .ok { items := [], executed := n } c') ∧
        ∀ e, r = .error e → 0 < n ∧ n ≤ pieces m) ∧
    ∀ k, (LowerError.structural (.tooManyDeferred k)).message =
      "structural error: more than " ++ toString k ++ " deferred continuations" := by
  refine ⟨lower_of_declareModule_error, ?_, fun k => ?_⟩
  · intro work c hdeclare
    obtain ⟨hpending, hsum⟩ := declareModule_pending hdeclare
    obtain ⟨n, r, hworks⟩ := exists_works c work
    obtain ⟨hok, herror⟩ := hworks.pieces hpending
    rw [hsum] at hok herror
    refine ⟨n, r, hworks, hworks.lower hdeclare none, fun k => ?_, fun p hr => ⟨hok p hr, ?_⟩, herror⟩
    · rw [hworks.lower hdeclare, checkLimit_some]
      by_cases hk : n ≤ k
      · rw [if_pos hk, if_pos hk]
        rfl
      · rw [if_neg hk, if_neg hk]
        rfl
    · subst hr
      obtain ⟨c', hdrain, _⟩ := hworks.drain_none 0
      rw [Nat.zero_add] at hdrain
      exact ⟨c', hdrain⟩
  · rfl

/-- The second of two functions reads a name that nothing defines. -/
def strayModule : Syntax.Module where
  name := "Post"
  constants := []
  functions := [
    { name := "start", parameters := [], returnType := .int, body := [.ret (some (.int 1))] },
    { name := "stop", parameters := [], returnType := .int, body := [.ret (some (.var "end"))] }]
  models := []

theorem parcelModule_limited :
    (pieces parcelModule = 9 ∧ lower parcelModule (some 9) = .ok parcelProgram ∧
      lower parcelModule (some 8) = .error (.structural (.tooManyDeferred 8))) ∧
    lower strayModule (some 1) = .error (.structural (.tooManyDeferred 1)) ∧
      ∀ k, 2 ≤ k → lower strayModule (some k) = .error (.nameNotFound "end") := by
  constructor
  · obtain ⟨_, hlimited, _⟩ := lower_limited parcelModule
    obtain ⟨hname, ts, hdeclares, _⟩ := lower_drains lower_parcelModule
    obtain ⟨n, r, _, hnone, hsome, hok, _⟩ :=
      hlimited (declareModule_eq_ok.mpr ⟨hname, ts, hdeclares, rfl, rfl⟩)
    obtain rfl : .ok parcelProgram = r := lower_parcelModule.symm.trans hnone
    obtain ⟨hn, _⟩ := hok _ rfl
    have hpieces : pieces parcelModule = 9 := rfl
    rw [hpieces] at hn
    refine ⟨hpieces, ?_, ?_⟩
    · rw [hsome, if_pos (by omega)]
    · rw [hsome, if_neg (by omega)]
  · obtain ⟨_, hlimited, _⟩ := lower_limited strayModule
    have hstray : lower strayModule none = .error (.nameNotFound "end") := by cbv
    have hfirst : lower strayModule (some 1) = .error (.structural (.tooManyDeferred 1)) := by cbv
    have hdeclare : ∃ work c, declareModule strayModule (.start strayModule) = .ok work c :=
      ⟨_, _, by cbv⟩
    obtain ⟨work, c, hdeclare⟩ := hdeclare
    obtain ⟨n, r, _, hnone, hsome, _, herror⟩ := hlimited hdeclare
    obtain rfl : .error (.nameNotFound "end") = r := hstray.symm.trans hnone
    have hle : n ≤ 2 := (herror _ rfl).2
    refine ⟨hfirst, fun k hk => ?_⟩
    rw [hsome, if_pos (by omega)]

end Scribe.Lowering
