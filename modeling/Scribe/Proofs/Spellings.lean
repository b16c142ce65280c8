import Mathlib.Data.List.Forall2
import Scribe.Proofs.Faithful

/-!
# Forms with two spellings

An operation of a container is written as a form of its own or as a call with the container as its
receiver, and a method of the same model is called with or without `self`. Which calls are meant this
way depends on what the receiver is, so `Respells p methods x e e'` looks at the expression `x` that
`e` became in the program `p`: `e'` is `e` with any of these forms, at any depth, in any of their
spellings. `RespellsStmt` says the same of statements.

Lowering does not tell spellings apart (`Elab.respell`, `ElabStmt.respell`).
-/

namespace Scribe.Syntax

/-! ## Spellings -/

/-- The spellings of a test of a set. -/
def Expr.containsSpellings (r v : Expr) : List Expr :=
  [.contains r v, .call (.method r "contains") [v]]

/-- The spellings of the last element of a list, taken off it. -/
def Expr.popSpellings (r : Expr) : List Expr :=
  [.pop r, .call (.method r "pop") []]

/-- The targets that name a method of the same model. -/
def Target.ownSpellings (name : String) : List Target :=
  [.function name, .method .self name]

/-- Whether a statement binds nothing and holds no other statements. -/
def Stmt.isSimple : Stmt → Bool
  | .declare _ _ | .conditional _ _ | .forLoop _ _ _ _ | .forEach _ _ _ => false
  | .assign _ _ | .ret _ | .brk | .cont | .add _ _ | .push _ _ | .pop _ | .call _ _ => true

/-- The spellings of a value added to a set. -/
def Stmt.addSpellings (r v : Expr) : List Stmt :=
  [.add r v, .call (.method r "add") [v]]

/-- The spellings of a value appended to a list. -/
def Stmt.pushSpellings (r v : Expr) : List Stmt :=
  [.push r v, .call (.method r "push") [v]]

/-- The spellings of taking the last element off a list. -/
def Stmt.popSpellings (r : Expr) : List Stmt :=
  [.pop r, .call (.method r "pop") []]

end Scribe.Syntax

namespace Scribe.Lowering

open Scribe.Core
open Scribe.Syntax (Target)

section Rules

variable (p : Program) (methods : List String)

mutual

/-- `e'` is `e` with some forms in another spelling, inside a model with the methods `methods`, where
`e` became `x` in `p`. -/
inductive Respells : Expr → Syntax.Expr → Syntax.Expr → Prop where
  | refl (x : Expr) (e : Syntax.Expr) : Respells x e e
  | list {xs item es es'} (hes : RespellsAll xs es es') :
      Respells (.list xs item) (.list es) (.list es')
  | set {xs item es es'} (hes : RespellsAll xs es es') :
      Respells (.set xs item) (.set es) (.set es')
  | map {xs key value entries entries'} (hentries : RespellsEntries xs entries entries') :
      Respells (.map xs key value) (.map entries) (.map entries')
  | call {receiver xs function t name es es'} (hes : RespellsAll xs es es') :
      Respells (.call receiver xs function t) (.call (.function name) es)
        (.call (.function name) es')
  | callMethod {xr xs function t name r r' es es'} (hr : Respells xr r r')
      (hes : RespellsAll xs es es') :
      Respells (.call (some xr) xs function t) (.call (.method r name) es)
        (.call (.method r' name) es')
  /-- A method of the same model, called with or without `self`. -/
  | callOwn {receiver xs function t name target target' es es'} (hname : name ∈ methods)
      (htarget : target ∈ Target.ownSpellings name) (htarget' : target' ∈ Target.ownSpellings name)
      (hes : RespellsAll xs es es') :
      Respells (.call receiver xs function t) (.call target es) (.call target' es')
  /-- A test of what is a set. -/
  | contains {x xr xv item e e' r r' v v'} (hx : x.children = [xr, xv])
      (ht : typeOf p xr = .ok (.set item)) (he : e ∈ Syntax.Expr.containsSpellings r v)
      (he' : e' ∈ Syntax.Expr.containsSpellings r' v') (hr : Respells xr r r')
      (hv : Respells xv v v') : Respells x e e'
  /-- The last element of what is a list. -/
  | pop {x xr item e e' r r'} (hx : x.children = [xr]) (ht : typeOf p xr = .ok (.list item))
      (he : e ∈ Syntax.Expr.popSpellings r) (he' : e' ∈ Syntax.Expr.popSpellings r')
      (hr : Respells xr r r') : Respells x e e'
  | lookup {xa xk kind t a a' k k'} (ha : Respells xa a a') (hk : Respells xk k k') :
      Respells (.lookup xa xk kind t) (.lookup a k) (.lookup a' k')
  | property {xr field t name r r'} (hr : Respells xr r r') :
      Respells (.property xr field t) (.property r name) (.property r' name)
  | length {x kind e e'} (he : Respells x e e') : Respells (.length x kind) (.length e) (.length e')
  | unary {op x t e e'} (he : Respells x e e') :
      Respells (.unary op x t) (.unary op e) (.unary op e')
  | binary {op xl xr t l l' r r'} (hl : Respells xl l l') (hr : Respells xr r r') :
      Respells (.binary op xl xr t) (.binary op l r) (.binary op l' r')

inductive RespellsAll : List Expr → List Syntax.Expr → List Syntax.Expr → Prop where
  | nil : RespellsAll [] [] []
  | cons {x xs e e' es es'} (he : Respells x e e') (hes : RespellsAll xs es es') :
      RespellsAll (x :: xs) (e :: es) (e' :: es')

inductive RespellsEntries :
    List (Expr × Expr) → List (Syntax.Expr × Syntax.Expr) → List (Syntax.Expr × Syntax.Expr) →
      Prop where
  | nil : RespellsEntries [] [] []
  | cons {xk xv xs k k' v v' entries entries'} (hk : Respells xk k k')
      (hv : Respells xv v v') (hentries : RespellsEntries xs entries entries') :
      RespellsEntries ((xk, xv) :: xs) ((k, v) :: entries) ((k', v') :: entries')

end

/-- `s'` is `s` with some forms in another spelling, where `s` became `x`, for statements that bind
nothing and hold no other statements. -/
inductive RespellsSimple : Stmt → Syntax.Stmt → Syntax.Stmt → Prop where
  | assign {xa x a a' e e'} (ha : Respells p methods xa a a') (he : Respells p methods x e e') :
      RespellsSimple (.assign xa x) (.assign a e) (.assign a' e')
  | ret {x callable e e'} (he : Respells p methods x e e') :
      RespellsSimple (.ret (some x) callable) (.ret (some e)) (.ret (some e'))
  | call {receiver xs function t name es es'} (hes : RespellsAll p methods xs es es') :
      RespellsSimple (.call receiver xs function t) (.call (.function name) es)
        (.call (.function name) es')
  | callMethod {xr xs function t name r r' es es'} (hr : Respells p methods xr r r')
      (hes : RespellsAll p methods xs es es') :
      RespellsSimple (.call (some xr) xs function t) (.call (.method r name) es)
        (.call (.method r' name) es')
  /-- A method of the same model, called with or without `self`. -/
  | callOwn {receiver xs function t name target target' es es'} (hname : name ∈ methods)
      (htarget : target ∈ Target.ownSpellings name) (htarget' : target' ∈ Target.ownSpellings name)
      (hes : RespellsAll p methods xs es es') :
      RespellsSimple (.call receiver xs function t) (.call target es) (.call target' es')
  /-- A value added to what is a set. -/
  | add {x xr xv item s s' r r' v v'} (hx : x.operands = [xr, xv])
      (ht : typeOf p xr = .ok (.set item)) (hs : s ∈ Syntax.Stmt.addSpellings r v)
      (hs' : s' ∈ Syntax.Stmt.addSpellings r' v') (hr : Respells p methods xr r r')
      (hv : Respells p methods xv v v') : RespellsSimple x s s'
  /-- A value appended to what is a list. -/
  | push {x xr xv item s s' r r' v v'} (hx : x.operands = [xr, xv])
      (ht : typeOf p xr = .ok (.list item)) (hs : s ∈ Syntax.Stmt.pushSpellings r v)
      (hs' : s' ∈ Syntax.Stmt.pushSpellings r' v') (hr : Respells p methods xr r r')
      (hv : Respells p methods xv v v') : RespellsSimple x s s'
  /-- The last element taken off what is a list. -/
  | pop {x xr item s s' r r'} (hx : x.operands = [xr]) (ht : typeOf p xr = .ok (.list item))
      (hs : s ∈ Syntax.Stmt.popSpellings r) (hs' : s' ∈ Syntax.Stmt.popSpellings r')
      (hr : Respells p methods xr r r') : RespellsSimple x s s'

mutual

/-- `s'` is `s` with some forms in another spelling, where `s` became `x`. -/
inductive RespellsStmt : Stmt → Syntax.Stmt → Syntax.Stmt → Prop where
  | refl (x : Stmt) (s : Syntax.Stmt) : RespellsStmt x s s
  | simple {x s s'} (hs : RespellsSimple p methods x s s') : RespellsStmt x s s'
  | declare {id x name e e'} (he : Respells p methods x e e') :
      RespellsStmt (.declare id x) (.declare name e) (.declare name e')
  | conditional {xarms xotherwise arms arms' otherwise otherwise'}
      (harms : RespellsArms xarms arms arms')
      (hotherwise : RespellsOtherwise xotherwise otherwise otherwise') :
      RespellsStmt (.conditional xarms xotherwise) (.conditional arms otherwise)
        (.conditional arms' otherwise')
  | forLoop {xstart xafter x xbody start start' after after' e e' body body'}
      (hstart : RespellsPart xstart start start') (he : Respells p methods x e e')
      (hafter : RespellsPart xafter after after') (hbody : RespellsBlock xbody body body') :
      RespellsStmt (.forLoop xstart x xafter xbody) (.forLoop start e after body)
        (.forLoop start' e' after' body')
  | forEach {id x kind t xbody item e e' body body'} (he : Respells p methods x e e')
      (hbody : RespellsBlock xbody body body') :
      RespellsStmt (.forEach id x kind t xbody) (.forEach item e body) (.forEach item e' body')

inductive RespellsBlock : List Stmt → List Syntax.Stmt → List Syntax.Stmt → Prop where
  | nil : RespellsBlock [] [] []
  | cons {x xs s s' ss ss'} (hs : RespellsStmt x s s') (hss : RespellsBlock xs ss ss') :
      RespellsBlock (x :: xs) (s :: ss) (s' :: ss')

inductive RespellsPart : Option Stmt → Option Syntax.Stmt → Option Syntax.Stmt → Prop where
  | none : RespellsPart none none none
  | some {x s s'} (hs : RespellsStmt x s s') : RespellsPart (some x) (some s) (some s')

inductive RespellsArms : List (Expr × List Stmt) → List (Syntax.Expr × List Syntax.Stmt) →
      List (Syntax.Expr × List Syntax.Stmt) → Prop where
  | nil : RespellsArms [] [] []
  | cons {x xblock xs e e' block block' arms arms'} (he : Respells p methods x e e')
      (hblock : RespellsBlock xblock block block') (harms : RespellsArms xs arms arms') :
      RespellsArms ((x, xblock) :: xs) ((e, block) :: arms) ((e', block') :: arms')

inductive RespellsOtherwise :
    Option (List Stmt) → Option (List Syntax.Stmt) → Option (List Syntax.Stmt) → Prop where
  | none : RespellsOtherwise none none none
  | some {xblock block block'} (hblock : RespellsBlock xblock block block') :
      RespellsOtherwise (some xblock) (some block) (some block')

end

end Rules

/-! ## There and back -/

section Symm

variable {p : Program} {methods : List String}

mutual

theorem Respells.symm : ∀ {x e e'}, Respells p methods x e e' → Respells p methods x e' e
  | _, _, _, .refl x e => .refl x e
  | _, _, _, .list hes => .list hes.symm
  | _, _, _, .set hes => .set hes.symm
  | _, _, _, .map hentries => .map hentries.symm
  | _, _, _, .call hes => .call hes.symm
  | _, _, _, .callMethod hr hes => .callMethod hr.symm hes.symm
  | _, _, _, .callOwn hname htarget htarget' hes => .callOwn hname htarget' htarget hes.symm
  | _, _, _, .contains hx ht he he' hr hv => .contains hx ht he' he hr.symm hv.symm
  | _, _, _, .pop hx ht he he' hr => .pop hx ht he' he hr.symm
  | _, _, _, .lookup ha hk => .lookup ha.symm hk.symm
  | _, _, _, .property hr => .property hr.symm
  | _, _, _, .length he => .length he.symm
  | _, _, _, .unary he => .unary he.symm
  | _, _, _, .binary hl hr => .binary hl.symm hr.symm

theorem RespellsAll.symm : ∀ {xs es es'},
    RespellsAll p methods xs es es' → RespellsAll p methods xs es' es
  | _, _, _, .nil => .nil
  | _, _, _, .cons he hes => .cons he.symm hes.symm

theorem RespellsEntries.symm : ∀ {xs entries entries'},
    RespellsEntries p methods xs entries entries' → RespellsEntries p methods xs entries' entries
  | _, _, _, .nil => .nil
  | _, _, _, .cons hk hv hentries => .cons hk.symm hv.symm hentries.symm

end

theorem RespellsSimple.symm {x : Stmt} {s s' : Syntax.Stmt} (h : RespellsSimple p methods x s s') :
    RespellsSimple p methods x s' s := by
  cases h with
  | assign ha he => exact .assign ha.symm he.symm
  | ret he => exact .ret he.symm
  | call hes => exact .call hes.symm
  | callMethod hr hes => exact .callMethod hr.symm hes.symm
  | callOwn hname htarget htarget' hes => exact .callOwn hname htarget' htarget hes.symm
  | add hx ht hs hs' hr hv => exact .add hx ht hs' hs hr.symm hv.symm
  | push hx ht hs hs' hr hv => exact .push hx ht hs' hs hr.symm hv.symm
  | pop hx ht hs hs' hr => exact .pop hx ht hs' hs hr.symm

mutual

theorem RespellsStmt.symm : ∀ {x s s'}, RespellsStmt p methods x s s' →
    RespellsStmt p methods x s' s
  | _, _, _, .refl x s => .refl x s
  | _, _, _, .simple hs => .simple hs.symm
  | _, _, _, .declare he => .declare he.symm
  | _, _, _, .conditional harms hotherwise => .conditional harms.symm hotherwise.symm
  | _, _, _, .forLoop hstart he hafter hbody =>
    .forLoop hstart.symm he.symm hafter.symm hbody.symm
  | _, _, _, .forEach he hbody => .forEach he.symm hbody.symm

theorem RespellsBlock.symm : ∀ {xs ss ss'},
    RespellsBlock p methods xs ss ss' → RespellsBlock p methods xs ss' ss
  | _, _, _, .nil => .nil
  | _, _, _, .cons hs hss => .cons hs.symm hss.symm

theorem RespellsPart.symm : ∀ {x s s'},
    RespellsPart p methods x s s' → RespellsPart p methods x s' s
  | _, _, _, .none => .none
  | _, _, _, .some hs => .some hs.symm

theorem RespellsArms.symm : ∀ {xs arms arms'}, RespellsArms p methods xs arms arms' →
    RespellsArms p methods xs arms' arms
  | _, _, _, .nil => .nil
  | _, _, _, .cons he hblock harms => .cons he.symm hblock.symm harms.symm

theorem RespellsOtherwise.symm : ∀ {x otherwise otherwise'},
    RespellsOtherwise p methods x otherwise otherwise' →
    RespellsOtherwise p methods x otherwise' otherwise
  | _, _, _, .none => .none
  | _, _, _, .some hblock => .some hblock.symm

end

end Symm

/-! ## One operation in its spellings -/

section Operations

variable {p q : Program} {scope : Scope} {methods : List String}

/-- Only an instance of a model has methods. -/
theorem resolveMethod_ne_ok (hg : q.Grows p) {x : Expr} {t t' : Ty} {name : String}
    {function : FunctionId} (hmodel : ∀ id, t ≠ .model id) (ht : typeOf p x = .ok t)
    (ht' : typeOf q x = .ok t') : resolveMethod q t' name ≠ .ok function := by
  intro h
  obtain ⟨id, m, rfl, _, _⟩ := resolveMethod_eq_ok.mp h
  cases ht.symm.trans (typeOf_grows hg x ht')
  exact hmodel id rfl

section Containers

variable (hg : q.Grows p) {xr xv : Expr} {item : Ty} {r v : Syntax.Expr}

include hg

variable {e : Syntax.Expr} {x : Stmt} {s : Syntax.Stmt}

/-- All spellings of a test of a set become the same. -/
theorem elab_contains_iff {x : Expr} (hx : x.children = [xr, xv])
    (ht : typeOf p xr = .ok (.set item)) (he : e ∈ Syntax.Expr.containsSpellings r v) :
    Elab q scope e x ↔ Elab q scope (.contains r v) x := by
  obtain rfl | rfl := List.mem_pair.mp he
  · rfl
  constructor
  · intro h
    -- the rules for other built-in names are told apart by `hname`
    generalize hname : "contains" = name at h
    cases h with
    | callContains hr htr hv htv => exact .contains hr htr hv htv
    | callMethod hr htr hresolve =>
      cases hx
      exact absurd hresolve (resolveMethod_ne_ok hg (by simp) ht htr)
  · intro h
    cases h with
    | contains hr htr hv htv => exact .callContains hr htr hv htv

/-- All spellings of the last element of a list become the same. -/
theorem elab_pop_iff {x : Expr} (hx : x.children = [xr]) (ht : typeOf p xr = .ok (.list item))
    (he : e ∈ Syntax.Expr.popSpellings r) : Elab q scope e x ↔ Elab q scope (.pop r) x := by
  obtain rfl | rfl := List.mem_pair.mp he
  · rfl
  constructor
  · intro h
    generalize hname : "pop" = name at h
    cases h with
    | callPop hr htr => exact .pop hr htr
    | callMethod hr htr hresolve =>
      cases hx
      exact absurd hresolve (resolveMethod_ne_ok hg (by simp) ht htr)
  · intro h
    cases h with
    | pop hr htr => exact .callPop hr htr

/-- All spellings of a value added to a set become the same. -/
theorem elab_add_iff (hx : x.operands = [xr, xv]) (ht : typeOf p xr = .ok (.set item))
    (hs : s ∈ Syntax.Stmt.addSpellings r v) :
    ElabSimple q scope s x ↔ ElabSimple q scope (.add r v) x := by
  obtain rfl | rfl := List.mem_pair.mp hs
  · rfl
  constructor
  · intro h
    generalize hname : "add" = name at h
    cases h with
    | callAdd hr htr hv htv => exact .add hr htr hv htv
    | callPush => exact absurd hname (by decide)
    | callMethod hr htr hresolve =>
      cases hx
      exact absurd hresolve (resolveMethod_ne_ok hg (by simp) ht htr)
  · intro h
    cases h with
    | add hr htr hv htv => exact .callAdd hr htr hv htv

/-- All spellings of a value appended to a list become the same. -/
theorem elab_push_iff (hx : x.operands = [xr, xv]) (ht : typeOf p xr = .ok (.list item))
    (hs : s ∈ Syntax.Stmt.pushSpellings r v) :
    ElabSimple q scope s x ↔ ElabSimple q scope (.push r v) x := by
  obtain rfl | rfl := List.mem_pair.mp hs
  · rfl
  constructor
  · intro h
    generalize hname : "push" = name at h
    cases h with
    | callPush hr htr hv htv => exact .push hr htr hv htv
    | callAdd => exact absurd hname (by decide)
    | callMethod hr htr hresolve =>
      cases hx
      exact absurd hresolve (resolveMethod_ne_ok hg (by simp) ht htr)
  · intro h
    cases h with
    | push hr htr hv htv => exact .callPush hr htr hv htv

/-- All spellings of taking the last element off a list become the same. -/
theorem elab_popStmt_iff (hx : x.operands = [xr]) (ht : typeOf p xr = .ok (.list item))
    (hs : s ∈ Syntax.Stmt.popSpellings r) :
    ElabSimple q scope s x ↔ ElabSimple q scope (.pop r) x := by
  obtain rfl | rfl := List.mem_pair.mp hs
  · rfl
  constructor
  · intro h
    generalize hname : "pop" = name at h
    cases h with
    | callPop hr htr => exact .pop hr htr
    | callMethod hr htr hresolve =>
      cases hx
      exact absurd hresolve (resolveMethod_ne_ok hg (by simp) ht htr)
  · intro h
    cases h with
    | pop hr htr => exact .callPop hr htr

end Containers

/-- A call inside a model reaches a method of the model through `self`. -/
structure CallsOwn (q : Program) (scope : Scope) (name : String) (receiver : Option Expr)
    (function : FunctionId) : Prop where
  own : ∃ id, scope.enclosingModel? = some id ∧ receiver = some (.self id) ∧
    resolveMethod q (.model id) name = .ok function

variable {receiver : Option Expr} {function : FunctionId}

/-- The name of a method means the method inside its model. -/
theorem resolveFunction_own {name : String} (hm : scope.Methods q methods)
    (hname : name ∈ methods) :
    resolveFunction q scope name = .ok (receiver, function) ↔
      CallsOwn q scope name receiver function := by
  rw [resolveFunction_iff]
  constructor
  · rintro (⟨id, m, hmodel, hget, hmethod, rfl⟩ | ⟨hnone, _, _⟩)
    · exact ⟨id, hmodel, rfl, resolveMethod_eq_ok.mpr ⟨id, m, rfl, hget, hmethod⟩⟩
    · unfold Scope.Methods at hm
      cases hmodel : scope.enclosingModel? with
      | none =>
        rw [hmodel] at hm
        rw [show methods = [] from hm] at hname
        cases hname
      | some id =>
        rw [hmodel] at hm
        obtain ⟨m, hget, hmethods⟩ := hm
        obtain ⟨m', hget', hmethod⟩ := hnone id hmodel
        cases hget.symm.trans hget'
        rw [hmethods, hmethod] at hname
        cases hname
  · rintro ⟨id, hmodel, rfl, hresolve⟩
    obtain ⟨_, m, heq, hget, hmethod⟩ := resolveMethod_eq_ok.mp hresolve
    cases heq
    exact .inl ⟨id, m, hmodel, hget, hmethod, rfl⟩

/-- A call becomes the same as a statement and as an expression. -/
theorem elabSimple_call_iff {target : Target} {es : List Syntax.Expr} {xs : List Expr} {t : Ty} :
    ElabSimple q scope (.call target es) (.call receiver xs function t) ↔
      Elab q scope (.call target es) (.call receiver xs function t) := by
  constructor
  · intro h
    cases h with
    | callFunction hresolve hf hes htypes => exact .callFunction hresolve hf hes htypes
    | callMethod hr ht hresolve hf hes htypes => exact .callMethod hr ht hresolve hf hes htypes
  · intro h
    cases h with
    | callFunction hresolve hf hes htypes => exact .callFunction hresolve hf hes htypes
    | callMethod hr ht hresolve hf hes htypes => exact .callMethod hr ht hresolve hf hes htypes

section Own

variable {name : String} {target : Target} {receiver : Option Expr} {es : List Syntax.Expr}
  {xs : List Expr} {function : FunctionId} {t : Ty} (hm : scope.Methods q methods)
  (hname : name ∈ methods) (htarget : target ∈ Target.ownSpellings name)

include hm hname htarget

/-- A method of the same model is called in the same way with and without `self`. -/
theorem elab_callOwn_iff : Elab q scope (.call target es) (.call receiver xs function t) ↔
    CallsOwn q scope name receiver function ∧ Elabs q scope es xs ∧
      ∃ f, q.getFunction? function = some f ∧ f.returnType = t ∧
        xs.map (typeOf q) = f.parameters.map fun q => .ok q.type := by
  simp only [Target.ownSpellings, List.mem_cons, List.not_mem_nil, or_false] at htarget
  constructor
  · intro h
    rcases htarget with rfl | rfl
    · cases h with
      | callFunction hresolve hf hes htypes =>
        exact ⟨(resolveFunction_own hm hname).mp hresolve, hes, _, hf, rfl, htypes⟩
    · cases h with
      | callMethod hr ht hresolve hf hes htypes =>
        cases hr with
        | self hid =>
          cases ht
          exact ⟨⟨_, hid, rfl, hresolve⟩, hes, _, hf, rfl, htypes⟩
  · rintro ⟨hown, hes, f, hf, rfl, htypes⟩
    rcases htarget with rfl | rfl
    · exact .callFunction ((resolveFunction_own hm hname).mpr hown) hf hes htypes
    · obtain ⟨id, hid, rfl, hresolve⟩ := hown
      exact .callMethod (.self hid) rfl hresolve hf hes htypes

end Own

end Operations

/-! ## Expressions -/

section Respell

variable {p : Program} {methods : List String}

/-- `null` has one spelling. -/
theorem Respells.eq_null {x : Expr} {e : Syntax.Expr} (h : Respells p methods x .null e) :
    e = .null := by
  cases h with
  | refl => rfl
  | contains hx ht he => simp [Syntax.Expr.containsSpellings] at he
  | pop hx ht he => simp [Syntax.Expr.popSpellings] at he

section Expressions

variable {q : Program} {scope : Scope}

/-- Whatever becomes `x` still does so in another spelling. -/
def Settled (p : Program) (methods : List String) (q : Program) (scope : Scope) (x : Expr) :
    Prop :=
  ∀ {e e'}, Respells p methods x e e' → Elab q scope e x → Elab q scope e' x

theorem Elabs.respell {xs : List Expr} {es es' : List Syntax.Expr} (h : Elabs q scope es xs)
    (hr : RespellsAll p methods xs es es') (hxs : ∀ x ∈ xs, Settled p methods q scope x) :
    Elabs q scope es' xs := by
  induction xs generalizing es es' with
  | nil =>
    cases hr
    exact h
  | cons x xs ih =>
    obtain ⟨hx, hrest⟩ := List.forall_mem_cons.mp hxs
    cases hr with
    | cons hre hres =>
      cases h with
      | cons he hes => exact .cons (hx hre he) (ih hes hres hrest)

theorem ElabEntries.respell {xs : List (Expr × Expr)}
    {entries entries' : List (Syntax.Expr × Syntax.Expr)} (h : ElabEntries q scope entries xs)
    (hr : RespellsEntries p methods xs entries entries')
    (hxs : ∀ x ∈ xs, Settled p methods q scope x.1 ∧ Settled p methods q scope x.2) :
    ElabEntries q scope entries' xs := by
  induction xs generalizing entries entries' with
  | nil =>
    cases hr
    exact h
  | cons x xs ih =>
    obtain ⟨hx, hrest⟩ := List.forall_mem_cons.mp hxs
    cases hr with
    | cons hrk hrv hrs =>
      cases h with
      | cons hk hv hentries => exact .cons (hx.1 hrk hk) (hx.2 hrv hv) (ih hentries hrs hrest)

variable {x : Expr} {e e' : Syntax.Expr}

/-- A respelled expression becomes what the expression became. -/
theorem Elab.respell (h : Elab q scope e x) (hr : Respells p methods x e e')
    (hm : scope.Methods q methods) (hg : q.Grows p) : Elab q scope e' x := by
  -- the induction is on `x`, whose nodes both spellings share
  revert hr h
  suffices hx : Settled p methods q scope x from fun h hr => hx hr h
  induction x using Expr.nodeInduction with
  | h x ih =>
  intro e e' hr h
  cases hr with
  | refl => exact h
  | list hes =>
    cases h with
    | list hes' hitem => exact .list (hes'.respell hes ih) hitem
  | set hes =>
    cases h with
    | set hes' hitem => exact .set (hes'.respell hes ih) hitem
  | map hentries =>
    cases h with
    | map hentries' hkey hvalue =>
      refine .map (hentries'.respell hentries fun x hx => ⟨ih _ ?_, ih _ ?_⟩) hkey hvalue
      · exact List.mem_flatMap.mpr ⟨x, hx, List.mem_cons_self⟩
      · exact List.mem_flatMap.mpr ⟨x, hx, List.mem_cons_of_mem _ List.mem_cons_self⟩
  | call hes =>
    cases h with
    | callFunction hresolve hf hes' htypes =>
      exact .callFunction hresolve hf
        (hes'.respell hes fun x hx => ih x (List.mem_append_right _ hx)) htypes
  | callMethod hr hes =>
    cases h with
    | callMethod hr' ht hresolve hf hes' htypes =>
      exact .callMethod (ih _ List.mem_cons_self hr hr') ht hresolve hf
        (hes'.respell hes fun x hx => ih x (List.mem_cons_of_mem _ hx)) htypes
  | callOwn hname htarget htarget' hes =>
    obtain ⟨hown, hes', hf⟩ := (elab_callOwn_iff hm hname htarget).mp h
    refine (elab_callOwn_iff hm hname htarget').mpr ⟨hown, ?_, hf⟩
    exact hes'.respell hes fun x hx => ih x (List.mem_append_right _ hx)
  | contains hx ht he he' hr hv =>
    rw [elab_contains_iff hg hx ht he] at h
    rw [elab_contains_iff hg hx ht he']
    cases h with
    | contains hr' htr hv' htv =>
      cases hx
      exact .contains (ih _ List.mem_cons_self hr hr') htr
        (ih _ (List.mem_cons_of_mem _ List.mem_cons_self) hv hv') htv
  | pop hx ht he he' hr =>
    rw [elab_pop_iff hg hx ht he] at h
    rw [elab_pop_iff hg hx ht he']
    cases h with
    | pop hr' htr =>
      cases hx
      exact .pop (ih _ List.mem_cons_self hr hr') htr
  | lookup ha hk =>
    cases h with
    | lookup ha' hk' hta htk hlookup =>
      exact .lookup (ih _ List.mem_cons_self ha ha')
        (ih _ (List.mem_cons_of_mem _ List.mem_cons_self) hk hk') hta htk hlookup
  | property hr =>
    cases h with
    | property hr' ht hfield => exact .property (ih _ List.mem_cons_self hr hr') ht hfield
  | length he =>
    cases h with
    | length he' ht hkind => exact .length (ih _ List.mem_cons_self he he') ht hkind
  | unary he =>
    cases h with
    | unary he' ht houtput => exact .unary (ih _ List.mem_cons_self he he') ht houtput
  | binary hl hr =>
    have ihl := ih _ List.mem_cons_self hl
    have ihr := ih _ (List.mem_cons_of_mem _ List.mem_cons_self) hr
    cases h with
    | binary hl' hr' htl htr houtput => exact .binary (ihl hl') (ihr hr') htl htr houtput
    | nullLeft hop he ht hvoid =>
      rw [hl.eq_null]
      exact .nullLeft hop (ihr he) ht hvoid
    | nullRight hop he ht hvoid =>
      rw [hr.eq_null]
      exact .nullRight hop (ihl he) ht hvoid

theorem ElabAt.respell {t : Ty} (h : ElabAt q scope t e x) (hr : Respells p methods x e e')
    (hm : scope.Methods q methods) (hg : q.Grows p) : ElabAt q scope t e' x := by
  cases h with
  | null hvoid =>
    rw [hr.eq_null]
    exact .null hvoid
  | expr he => exact .expr (he.respell hr hm hg)

end Expressions

/-! ## Statements -/

variable {x : Stmt} {s s' : Syntax.Stmt}

theorem RespellsSimple.isSimple (h : RespellsSimple p methods x s s') : s.isSimple = true := by
  have hall {ss : List Syntax.Stmt} (hss : ∀ t ∈ ss, t.isSimple = true) (hs : s ∈ ss) :
      s.isSimple = true := hss s hs
  cases h with
  | add hx ht hs | push hx ht hs | pop hx ht hs => exact hall (forall_mem_pair rfl rfl) hs
  | _ => rfl

theorem ElabSimple.respell {q : Program} {scope : Scope} (h : ElabSimple q scope s x)
    (hr : RespellsSimple p methods x s s') (hm : scope.Methods q methods) (hg : q.Grows p) :
    ElabSimple q scope s' x := by
  cases hr with
  | assign ha he =>
    cases h with
    | assign hplace hisPlace ht he' hte =>
      exact .assign (hplace.respell ha hm hg) hisPlace ht (he'.respell he hm hg) hte
  | ret he =>
    cases h with
    | retSome hcallable ht he' hte => exact .retSome hcallable ht (he'.respell he hm hg) hte
  | call hes =>
    rw [elabSimple_call_iff] at h ⊢
    exact h.respell (.call hes) hm hg
  | callMethod hr hes =>
    rw [elabSimple_call_iff] at h ⊢
    exact h.respell (.callMethod hr hes) hm hg
  | callOwn hname htarget htarget' hes =>
    rw [elabSimple_call_iff] at h ⊢
    exact h.respell (.callOwn hname htarget htarget' hes) hm hg
  | add hx ht hs hs' hr hv =>
    rw [elab_add_iff hg hx ht hs] at h
    rw [elab_add_iff hg hx ht hs']
    cases h with
    | add hr' htr hv' htv =>
      cases hx
      exact .add (hr'.respell hr hm hg) htr (hv'.respell hv hm hg) htv
  | push hx ht hs hs' hr hv =>
    rw [elab_push_iff hg hx ht hs] at h
    rw [elab_push_iff hg hx ht hs']
    cases h with
    | push hr' htr hv' htv =>
      cases hx
      exact .push (hr'.respell hr hm hg) htr (hv'.respell hv hm hg) htv
  | pop hx ht hs hs' hr =>
    rw [elab_popStmt_iff hg hx ht hs] at h
    rw [elab_popStmt_iff hg hx ht hs']
    cases h with
    | pop hr' htr =>
      cases hx
      exact .pop (hr'.respell hr hm hg) htr

section Context

variable {c c' : Context} (hm : c.scope.Methods c.program methods)

include hm

theorem Scope.Methods.stmt {s : Syntax.Stmt} {s' : Stmt} (h : ElabStmt c s s' c') :
    c'.scope.Methods c'.program methods :=
  hm.of_adds h.adds.1 h.enclosingModel?

theorem Scope.Methods.part {s : Option Syntax.Stmt} {s' : Option Stmt} (h : ElabPart c s s' c') :
    c'.scope.Methods c'.program methods := by
  cases h with
  | none => exact hm
  | some hs => exact hm.stmt hs

end Context

mutual

/-- A respelled statement becomes what the statement became, and leaves the same context. -/
theorem ElabStmt.respell {s s' : Syntax.Stmt} {c c' x} (h : ElabStmt c s x c')
    (hr : RespellsStmt p methods x s s') (hm : c.scope.Methods c.program methods)
    (hg : c'.program.Grows p) : ElabStmt c s' x c' := by
  cases hr with
  | refl => exact h
  | simple hr =>
    have hsimple := hr.isSimple
    cases h with
    | simple hs => exact .simple (hs.respell hr hm hg)
    | declare | conditional | forLoop | forEach => cases hsimple
  | declare he =>
    cases h with
    | simple hs => cases hs
    | declare hname he' ht hvoid hbind =>
      exact .declare hname (he'.respell he hm ((AddsLocals.single _ _).grows.trans hg)) ht hvoid hbind
  | conditional hra hro =>
    cases h with
    | simple hs => cases hs
    | conditional hne harms hotherwise =>
      obtain ⟨hadds, hscope⟩ := harms.adds
      refine .conditional ?_ (harms.respell hra hm (hotherwise.adds.1.grows.trans hg))
        (hotherwise.respell hro (hm.of_adds hadds (by rw [hscope])) hg)
      cases hra with
      | nil => exact hne
      | cons => exact List.cons_ne_nil _ _
  | forLoop hrs hre hra hrb =>
    cases h with
    | simple hs => cases hs
    | forLoop hstart he hte hafter hbody =>
      -- the last part comes before the body, and the condition sees neither
      have hg2 := hbody.adds.1.grows.trans hg
      have hg1 := hafter.adds.1.grows.trans hg2
      have hm1 := Scope.Methods.part (c := { c with scope := .forLoop none :: c.scope }) hm hstart
      have hm2 := hm1.part hafter
      exact .forLoop (hstart.respell hrs hm hg1) (he.respell hre hm1 hg1) hte
        (hafter.respell hra hm1 hg2) (hbody.respell hrb hm2 hg)
  | forEach hre hrb =>
    cases h with
    | simple hs => cases hs
    | forEach hname he ht hkind hbody =>
      have hadds := AddsLocals.single c.program
      have hg1 := hbody.adds.1.grows.trans hg
      exact .forEach hname (he.respell hre hm ((hadds _).grows.trans hg1)) ht hkind
        (hbody.respell hrb (hm.of_adds (hadds _) rfl) hg)

theorem ElabStmts.respell {ss ss' : List Syntax.Stmt} {c c' xs} (h : ElabStmts c ss xs c')
    (hr : RespellsBlock p methods xs ss ss') (hm : c.scope.Methods c.program methods)
    (hg : c'.program.Grows p) : ElabStmts c ss' xs c' := by
  cases hr with
  | nil => exact h
  | cons hrs hrss =>
    cases h with
    | cons hs hss =>
      exact .cons (hs.respell hrs hm (hss.adds.1.grows.trans hg)) (hss.respell hrss (hm.stmt hs) hg)

theorem ElabPart.respell {s s' : Option Syntax.Stmt} {c c' x} (h : ElabPart c s x c')
    (hr : RespellsPart p methods x s s') (hm : c.scope.Methods c.program methods)
    (hg : c'.program.Grows p) : ElabPart c s' x c' := by
  cases hr with
  | none => exact h
  | some hrs =>
    cases h with
    | some hs => exact .some (hs.respell hrs hm hg)

theorem ElabArms.respell {arms arms' : List (Syntax.Expr × List Syntax.Stmt)} {c c' xs}
    (h : ElabArms c arms xs c') (hr : RespellsArms p methods xs arms arms')
    (hm : c.scope.Methods c.program methods) (hg : c'.program.Grows p) :
    ElabArms c arms' xs c' := by
  cases hr with
  | nil => exact h
  | cons hre hrb hra =>
    cases h with
    | cons he hte hblock harms =>
      have hg1 := harms.adds.1.grows.trans hg
      exact .cons (he.respell hre hm (hblock.adds.1.grows.trans hg1)) hte
        (hblock.respell hrb hm hg1) (harms.respell hra (hm.of_adds hblock.adds.1 rfl) hg)

theorem ElabOtherwise.respell {otherwise otherwise' : Option (List Syntax.Stmt)} {c c' x}
    (h : ElabOtherwise c otherwise x c') (hr : RespellsOtherwise p methods x otherwise otherwise')
    (hm : c.scope.Methods c.program methods) (hg : c'.program.Grows p) :
    ElabOtherwise c otherwise' x c' := by
  cases hr with
  | none => exact h
  | some hrb =>
    cases h with
    | some hblock => exact .some (hblock.respell hrb hm hg)

end

end Respell

end Scribe.Lowering
