import Mathlib.Order.Filter.AtTopBot.Basic
import Mathlib.Order.Filter.Finite
import Scribe.Proofs.CallGraph
import Scribe.Proofs.Cycles
import Scribe.Proofs.Nesting
import Scribe.Proofs.SafeExec

/-!
# Computations that come to their end

Fuel is a device of the machine; a computation comes to its end if its result does not depend on the
fuel from some amount on, and is not exhaustion. There is one exception. A lookup that does not find
its key names the key in its fault, and a key that contains itself has no text, so such a lookup
stays without an answer however much fuel there is (`Unanswered`).

In a program without overrides, environments with enough fuel are a `Setting`: they do the same,
they never run out of fuel, and they stop without a fault only at an unanswered lookup. How much is
enough for code depends on how deep containers are nested in its types and on the functions that it
calls (`Expr.served_eventually`), as long as no `for` is in it (`Stmt.served_eventually`). A for-each
walks over the items that there were when it began, whatever its body does to the container.
-/

namespace Scribe.Machine

open Filter (Eventually atTop eventually_all_finite)
open Scribe.Core
open Scribe.Lowering

/-- A lookup without an answer. The program looks up keys in maps; this map does not have the key,
and the key contains itself. -/
structure Unanswered (p : Program) (map : Address) (key : Value) (h : Heap) : Prop where
  lookup : ∃ container k output, (Expr.lookup container k .map output).InProgram p
  missing : ∃ n, ∀ fuel s, n ≤ fuel → s.heap = h →
    findKey (Env.ofFuel p fuel).equal (h.map map).toList key s = .ok none s
  cyclic : h.ContainsItself key

/-! ## Enough fuel -/

theorem Decides.safe {ι α : Type} {X : Stop → Heap → Prop} {p : Program} {site : Site} {w : World}
    {act : ι → Exec α} (h : ∀ heap, HeapTyped p w.inner heap → Decides heap act) :
    Safe X p site w act fun _ _ => True := by
  intro s hs
  obtain ⟨a, ha⟩ := h s.heap hs.heap.inner
  exact .ok (fun i => ha i s rfl) ⟨w, .refl hs, trivial⟩

section Fuel

variable {p : Program} (hno : p.NoOverrides)

include hno in
theorem equal_decides {τ : Typing} {h : Heap} (hheap : HeapTyped p τ h) {n : Nat} {l r : Value}
    {t t' : Ty} (hl : HasType τ l t) (hr : HasType τ r t') (ht : t.nesting < n)
    (ht' : t'.nesting < n) :
    Decides h fun i : { fuel // n ≤ fuel } => (Env.ofFuel p i.val).equal l r :=
  (valuesEqual_decides hno ((hl.shows hheap).nests ht) ((hr.shows hheap).nests ht')).reindex
    (fun i => ⟨.ofFuel p i.val, i.val, rfl, i.property⟩) fun _ => rfl

/-- Environments with `n` or more units of fuel. They agree on values of types that are nested less
than `n` deep. -/
def Setting.above (n : Nat) : Setting p { fuel // n ≤ fuel } where
  env i := .ofFuel p i.val
  program _ := rfl
  comparable t := t.nesting < n
  unfinished stop h := ∃ map key, stop = .endless map key ∧ Unanswered p map key h
  equal ht ht' _ _ _ hl hr := Decides.safe fun _ hheap => equal_decides hno hheap hl hr ht ht'
  hash ht _ _ hv := Decides.safe fun _ hheap =>
    (hashValue_decides hno ((hv.shows hheap).nests ht)).reindex
      (fun i => ⟨.ofFuel p i.val, i.val, rfl, i.property⟩) fun _ => rfl

/-- A lookup comes to its end if it has an answer. -/
theorem lookup_above {n : Nat} {site : Site} {container key : Expr} {kind : LookupKind} {t : Ty}
    (hsound : Expr.Sound p site (.lookup container key kind t))
    (hprogram : (Expr.lookup container key kind t).InProgram p)
    (hc : EvalSafe (Setting.above hno n) site container)
    (hk : EvalSafe (Setting.above hno n) site key) (w : World) :
    Safe (Setting.above hno n).unfinished p site w
      (fun i : { fuel // n ≤ fuel } => eval (.ofFuel p i.val) (.lookup container key kind t))
      fun w' v => HasType w'.inner v t := by
  obtain ⟨⟨_, tc, tk, htc, htk, hlookup⟩, _⟩ := hsound
  have hkey : tk.nesting < n := hk.comparable htk
  unfold eval
  intro s hs
  refine (hc.safe w htc s hs).bind fun w1 c s1 hrc hkeeps1 hvc => ?_
  refine (hk.safe w1 htk s1 hkeeps1.ready).bind fun w2 k s2 hrk hkeeps2 hvk => ?_
  refine lookupValue_safe (Setting.above hno n) hkey hlookup (hvc.mono hkeeps2.le.inner) hvk
    hkeeps2.ready ?_
  rintro a value s3 rfl ha hfind hcycle
  have hheap := hkeeps2.ready.heap.inner
  obtain ⟨found, hfound⟩ : Decides s2.heap fun i : { fuel // n ≤ fuel } =>
      findKey (Env.ofFuel p i.val).equal (s2.heap.map a).toList k :=
    .position (List.forall_mem_map.mpr fun e he =>
      equal_decides hno hheap ((hheap.entries_map ha).mem_toList e he).1 hvk hkey hkey)
  -- the search left the state as it was
  cases (hfind ⟨n, Nat.le_refl n⟩).symm.trans (hfound ⟨n, Nat.le_refl n⟩ s2 rfl)
  refine ⟨a, k, rfl, ⟨container, key, t, ?_⟩,
    ⟨n, fun fuel s hfuel hs => hfound ⟨fuel, hfuel⟩ s hs⟩, hcycle⟩
  obtain ⟨rfl, _, _⟩ | ⟨rfl, rfl⟩ | ⟨rfl, _, _, _⟩ := lookupType_eq_ok.mp hlookup
  · cases hvc
  · exact hprogram
  · cases hvc

/-! ## Code -/

/-- Enough fuel serves a sound expression if it serves the functions that it calls. The induction
goes over the nodes of the expression. -/
theorem Expr.served_eventually {site : Site} {e : Expr} (he : e.All (Expr.Sound p site))
    (hprogram : ∀ x : Expr, x.InExpr e → x.InProgram p)
    (hcalls : ∀ᶠ n in atTop, site.callable.isSome →
      ∀ id ∈ e.callees, FunctionSafe (Setting.above hno n) id) :
    ∀ᶠ n in atTop, e.All (Expr.Served (Setting.above hno n) site) := by
  induction he with
  | @intro e here _ ih =>
    have hbelow : ∀ᶠ n in atTop, ∀ c ∈ e.children,
        c.All (Expr.Served (Setting.above hno n) site) :=
      (eventually_all_finite (List.finite_toSet e.children)).mpr fun c hc =>
        ih c hc (fun x hx => hprogram x (.deeper hc hx)) <| hcalls.mono fun _ h hsite id hid =>
          h hsite id (Expr.mem_callees_of_child hc hid)
    filter_upwards [hbelow, hcalls, Filter.eventually_gt_atTop e.stated.nesting]
      with n hbelow hcalls hnesting
    refine .intro ⟨hnesting, ?_, ?_⟩ hbelow
    · rintro receiver arguments id t rfl
      exact hcalls here.2.1 id List.mem_cons_self
    · rintro container key kind t rfl hc hk
      exact lookup_above hno here (hprogram _ .here) hc hk

/-- Enough fuel serves a sound statement without a `for` if it serves the functions that it calls.
The induction goes over the statements inside the statement. -/
theorem Stmt.served_eventually {site : Site} {s : Stmt} (hs : s.All (Stmt.Sound p site))
    (hfor : s.All fun s => s.isFor = false) (hprogram : ∀ x : Expr, x.InStmt s → x.InProgram p)
    (hcalls : ∀ᶠ n in atTop, ∀ id ∈ s.callees, FunctionSafe (Setting.above hno n) id) :
    ∀ᶠ n in atTop, s.All (Stmt.Served (Setting.above hno n) site) := by
  induction hs with
  | @intro s here _ ih =>
    obtain ⟨hnofor, hfor⟩ := hfor
    have hbelow : ∀ᶠ n in atTop, ∀ t ∈ s.children,
        t.All (Stmt.Served (Setting.above hno n) site) :=
      (eventually_all_finite (List.finite_toSet s.children)).mpr fun t ht =>
        ih t ht (hfor t ht) (fun x hx => hprogram x (.deeper ht hx)) <| hcalls.mono
          fun _ h id hid => h id (Stmt.mem_callees_of_child ht hid)
    have hoperands : ∀ᶠ n in atTop, ∀ e ∈ s.operands,
        e.All (Expr.Served (Setting.above hno n) site) :=
      (eventually_all_finite (List.finite_toSet s.operands)).mpr fun e he =>
        Expr.served_eventually hno (here.operands e he) (fun x hx => hprogram x (.operand he hx)) <|
          hcalls.mono fun _ h _ id hid => h id (Stmt.mem_callees_of_operand he hid)
    filter_upwards [hbelow, hoperands, hcalls] with n hbelow hoperands hcalls
    refine .intro ⟨hoperands, ?_, ?_⟩ hbelow
    · rintro receiver arguments id t rfl
      exact hcalls id List.mem_cons_self
    · rintro start condition after body rfl
      cases hnofor

/-! ## Functions -/

variable (hp : p.Sound)

include hp

/-- The calls of a function come to their end if those of the functions that its body calls do. -/
theorem functionSafe_of_callees (hfor : p.NoFor) {id : FunctionId} {f : Function}
    (hf : p.getFunction? id = some f) (hcallees : ∀ callee ∈ blockCallees f.body,
      ∀ᶠ n in atTop, FunctionSafe (Setting.above hno n) callee) :
    ∀ᶠ n in atTop, FunctionSafe (Setting.above hno n) id := by
  have hbody : p.body? (.function id) = some f.body := by
    rw [Program.body?, hf, Option.map_some]
  have hreturn : p.callableReturnType? (.function id) = some f.returnType := by
    rw [Program.callableReturnType?, hf, Option.map_some]
  have hsound := (hp.bodies hbody).sound
  have hcallees := (eventually_all_finite (List.finite_toSet (blockCallees f.body))).mpr hcallees
  have hserved : ∀ᶠ n in atTop, ∀ s ∈ f.body,
      s.All (Stmt.Served (Setting.above hno n) (.ofBody p (.function id) f.body)) :=
    (eventually_all_finite (List.finite_toSet f.body)).mpr fun s hs =>
      Stmt.served_eventually hno (hsound s hs) (hfor _ _ hbody s hs)
        (fun x hx => .body hbody hs hx) <| hcallees.mono
          fun _ h callee hcallee => h callee (mem_blockCallees hs hcallee)
  -- the body runs with one unit of fuel less than the call
  obtain ⟨m, hm⟩ := Filter.eventually_atTop.mp hserved
  refine Filter.eventually_atTop.mpr ⟨m + 1, fun n hn => ?_⟩
  obtain ⟨k, rfl⟩ : ∃ k, n = k + 1 := ⟨n - 1, by omega⟩
  intro g w receiver arguments hg hreceiver harguments s hs
  cases hf.symm.trans hg
  have hexec (t : Stmt) (ht : t ∈ f.body) :
      ExecSafe (Setting.above hno k) (.ofBody p (.function id) f.body) t :=
    exec_safe rfl (hsound t ht) (hm k (by omega) t ht)
  have hstart : Nonempty { fuel // k ≤ fuel } := ⟨k, Nat.le_refl k⟩
  have hcalls := body_safe hp f.name hbody hreturn (callFrame_typed hf hreceiver harguments) hexec
  refine ((hcalls s hs).reindex fun i => ⟨i.val - 1, Nat.le_sub_of_add_le i.property⟩).of_eq ?_
  rintro ⟨fuel, hfuel⟩
  obtain ⟨j, rfl⟩ : ∃ j, fuel = j + 1 := ⟨fuel - 1, by omega⟩
  exact congrFun (callFunction_eq rfl hf receiver arguments) s

theorem functionSafe_eventually (hfor : p.NoFor) (hcalls : p.NoRecursion) (id : FunctionId) :
    ∀ᶠ n in atTop, FunctionSafe (Setting.above hno n) id := by
  refine hcalls.induction (P := fun id => ∀ᶠ n in atTop, FunctionSafe (Setting.above hno n) id)
    (fun id f hf hcallees => ?_) (fun id hnone => ?_) id
  · exact functionSafe_of_callees hno hp hfor hf hcallees
  · refine .of_forall fun n f w receiver arguments hf => ?_
    rw [hnone] at hf
    cases hf

/-- A constant calls nothing. -/
theorem constants_eventually : ∀ᶠ n in atTop, ∀ id c, p.getConstant? id = some c →
    EvalSafe (Setting.above hno n) (.ofConstant id) c.value := by
  have hserved (k : Fin p.constants.size) : ∀ᶠ n in atTop,
      p.constants[k].value.All (Expr.Served (Setting.above hno n) (.ofConstant ⟨k⟩)) := by
    have hc : p.getConstant? ⟨k⟩ = some p.constants[k] := Array.getElem?_eq_getElem k.isLt
    exact Expr.served_eventually hno (hp.constants _ _ hc).1 (fun x hx => .constant hc hx)
      (.of_forall (by rintro _ ⟨⟩))
  filter_upwards [Filter.eventually_all.mpr hserved] with n hserved id c hc
  obtain ⟨hlt, rfl⟩ := Array.getElem?_eq_some_iff.mp hc
  exact eval_safe (hp.constants id _ hc).1 (hserved ⟨id.index, hlt⟩)

end Fuel

end Scribe.Machine
