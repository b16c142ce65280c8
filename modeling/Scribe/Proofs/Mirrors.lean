import Scribe.Proofs.Relabel
import Scribe.Proofs.Soundness

/-!
# Lowering under other names, step by step

Lowering a relabeled module is compared with lowering the module. Two computations mirror each other
(`Lower.Mirrors`) if both give results that correspond, in states that correspond, or both fail with
errors of the same kind. Most errors say what is wrong with the module. A few would say that lowering
itself went wrong: an id or an index that leads nowhere, a return outside of every callable, a body
for which no place was made. None of these may turn up in computations that mirror each other.

There is one rule for each way to build a computation. What the typing rules are asked about is
known to the program, because it was lowered before; so they go the same way, and blame the module.
-/

namespace Scribe.Lowering

open Scribe.Core

/-- Errors that lowering has for its own mistakes. -/
def LowerError.Internal : LowerError → Prop
  | .structural .dangling | .structural .returnOutsideCallable
  | .structural .equalityWithoutSkeleton | .structural .hashingWithoutSkeleton => True
  | _ => False

/-- Errors of the same kind, about the module. -/
structure LowerError.Counterpart (e e' : LowerError) : Prop where
  kind : e'.kind = e.kind
  external : ¬e.Internal

/-! ## Checks that go the same way -/

/-- Both checks give results that correspond, or both fail with errors of the same kind. -/
inductive Checked.Mirrors {α β : Type} (R : α → β → Prop) : Checked α → Checked β → Prop where
  | ok {a : α} {b : β} (h : R a b) : Mirrors R (.ok a) (.ok b)
  | error {e e' : LowerError} (h : e.Counterpart e') : Mirrors R (.error e) (.error e')

namespace Checked.Mirrors

variable {α β γ δ : Type} {R : α → β → Prop} {S : γ → δ → Prop}

variable {x : Checked α} {y : Checked β} {f : α → Checked γ}

theorem cases (h : Mirrors R x y) :
    (∃ a b, x = .ok a ∧ y = .ok b ∧ R a b) ∨
      ∃ e e', x = .error e ∧ y = .error e' ∧ e.Counterpart e' := by
  cases h with
  | ok hab => exact .inl ⟨_, _, rfl, rfl, hab⟩
  | error he => exact .inr ⟨_, _, rfl, rfl, he⟩

theorem bind {g : β → Checked δ} (h : Mirrors R x y)
    (hf : ∀ a b, x = .ok a → R a b → Mirrors S (f a) (g b)) : Mirrors S (x >>= f) (y >>= g) := by
  cases h with
  | ok hab => exact hf _ _ rfl hab
  | error he => exact .error he

/-- The rest after a check whose result is the same on both sides. -/
theorem bind_eq {y : Checked α} {g : α → Checked δ} (h : Mirrors Eq x y)
    (hf : ∀ a, x = .ok a → Mirrors S (f a) (g a)) : Mirrors S (x >>= f) (y >>= g) :=
  h.bind fun a b ha hab => by
    cases hab
    exact hf a ha

/-- What is there is there under other names. -/
theorem ofOption {o : Option α} {o' : Option β} {f : α → β} {a : α} (ha : o = some a)
    (h : o' = o.map f) : Mirrors (fun a b => b = f a) (.ofOption o) (.ofOption o') := by
  rw [h, ha]
  exact .ok rfl

end Checked.Mirrors

/-- A name is bound unless it is taken, or the frame is not one for declarations. -/
theorem Scope.bind_mirrors {r : String → String} (hr : Function.Injective r) (b : Binding)
    (scope : Scope) : Checked.Mirrors (fun s s' => s' = s.relabel r) (scope.bind b)
      ((scope.relabel r).bind (b.relabel r)) := by
  have hany (bindings : List Binding) :
      (bindings.map (·.relabel r)).any (·.name == (b.relabel r).name) =
        bindings.any (·.name == b.name) := by
    rw [List.any_map]
    exact congrArg (bindings.any ·) (funext fun b' => relabel_beq hr b'.name b.name)
  cases scope with
  | nil => exact .error ⟨rfl, id⟩
  | cons frame outer =>
    cases frame with
    | block bindings =>
      show Checked.Mirrors _ (if bindings.any (·.name == b.name) then _ else _)
        (if (bindings.map (·.relabel r)).any (·.name == (b.relabel r).name) then _ else _)
      rw [hany]
      split
      · exact .error ⟨rfl, id⟩
      · exact .ok rfl
    | forLoop binding =>
      cases binding with
      | none => exact .ok rfl
      | some _ => exact .error ⟨rfl, id⟩
    | program | model | function | equality | hashing | forEach => exact .error ⟨rfl, id⟩

/-! ## Computations that go the same way -/

namespace Step

variable {ε σ α β : Type} {E : ε → ε → Prop} {g : σ → σ} {R : α → β → Prop}

/-- Both results are values that correspond in states that correspond, or both are errors that
correspond. -/
inductive Mirrored (E : ε → ε → Prop) (g : σ → σ) (R : α → β → Prop) :
    EStateM.Result ε σ α → EStateM.Result ε σ β → Prop where
  | ok {a : α} {b : β} {s : σ} (h : R a b) : Mirrored E g R (.ok a s) (.ok b (g s))
  | error {e e' : ε} {s s' : σ} (h : E e e') : Mirrored E g R (.error e s) (.error e' s')

theorem Mirrored.cases {x : EStateM.Result ε σ α} {y : EStateM.Result ε σ β}
    (h : Mirrored E g R x y) : (∃ a b s, x = .ok a s ∧ y = .ok b (g s) ∧ R a b) ∨
      ∃ e e' s s', x = .error e s ∧ y = .error e' s' ∧ E e e' := by
  cases h with
  | ok hab => exact .inl ⟨_, _, _, rfl, rfl, hab⟩
  | error he => exact .inr ⟨_, _, _, _, rfl, rfl, he⟩

end Step

/-- The second declaration does to the relabeled program what the first does to the program. -/
def Build.Mirrors {α : Type} (r : String → String) (p : Program) (x y : Build α) : Prop :=
  Step.Mirrored (fun e e' => (LowerError.ofBuild e).Counterpart (.ofBuild e')) (Program.relabel r)
    Eq (x p) (y (p.relabel r))

/-- A declaration that cannot be refused. -/
theorem Build.Mirrors.of_ok {α : Type} {r : String → String} {p q : Program} {x y : Build α} {a : α}
    (hx : x p = .ok a q) (hy : y (p.relabel r) = .ok a (q.relabel r)) : Build.Mirrors r p x y := by
  unfold Build.Mirrors
  rw [hx, hy]
  exact .ok rfl

/-- The second computation does in the relabeled context what the first does in the context. -/
def Lower.Mirrors {α β : Type} (r : String → String) (R : α → β → Prop) (c : Context) (x : Lower α)
    (y : Lower β) : Prop :=
  Step.Mirrored LowerError.Counterpart (Context.relabel r) R (x c) (y (c.relabel r))

namespace Lower.Mirrors

variable {r : String → String} {α β γ δ : Type} {R : α → β → Prop} {S : γ → δ → Prop} {c : Context}

variable {a : α} {b : β} {e e' : LowerError} {x : Lower α} {y : Lower β} {f g : α → Lower γ}
  {k : β → Lower δ} {l : α → Lower δ} {I : Context → Prop} {xs : List α}

theorem pure (h : R a b) : Lower.Mirrors r R c (pure a) (pure b) :=
  .ok h

theorem throw (h : e.Counterpart e') : Lower.Mirrors r R c (throw e) (throw e') :=
  .error h

theorem mono {T : α → β → Prop} (h : Lower.Mirrors r R c x y) (hT : ∀ a b, R a b → T a b) :
    Lower.Mirrors r T c x y := by
  unfold Lower.Mirrors
  obtain ⟨a, b, c', hx, hy, hab⟩ | ⟨e, e', c', d', hx, hy, he⟩ := h.cases
  · rw [hx, hy]
    exact .ok (hT a b hab)
  · rw [hx, hy]
    exact .error he

theorem bind (h : Lower.Mirrors r R c x y)
    (hf : ∀ a b c', x c = .ok a c' → R a b → Lower.Mirrors r S c' (f a) (k b)) :
    Lower.Mirrors r S c (x >>= f) (y >>= k) := by
  unfold Lower.Mirrors
  obtain ⟨a, b, c', hx, hy, hab⟩ | ⟨e, e', c', d', hx, hy, he⟩ := h.cases
  · rw [Step.bind_of_ok hx, Step.bind_of_ok hy]
    exact hf a b c' hx hab
  · rw [Step.bind_of_error hx, Step.bind_of_error hy]
    exact .error he

/-- The rest after a step whose result is the same on both sides. -/
theorem bind_eq {y : Lower α} {k : α → Lower δ} (h : Lower.Mirrors r Eq c x y)
    (hf : ∀ a c', x c = .ok a c' → Lower.Mirrors r S c' (f a) (k a)) :
    Lower.Mirrors r S c (x >>= f) (y >>= k) :=
  h.bind fun a b c' ha hab => by
    cases hab
    exact hf a c' ha

/-- What follows only forms the result. -/
theorem bind_pure {y : Lower α} {g : α → δ} (h : Lower.Mirrors r Eq c x y) :
    Lower.Mirrors r Eq c (x >>= fun a => Pure.pure (g a)) (y >>= fun a => Pure.pure (g a)) :=
  h.bind_eq fun _ _ _ => .pure rfl

/-- An error in front of the rest. -/
theorem throw_bind (h : e.Counterpart e') :
    Lower.Mirrors r S c ((MonadExcept.throw e : Lower α) >>= f)
      ((MonadExcept.throw e' : Lower β) >>= k) :=
  .error h

theorem map {f : α → γ} {k : β → δ} (h : Lower.Mirrors r R c x y)
    (hf : ∀ a b, R a b → S (f a) (k b)) : Lower.Mirrors r S c (f <$> x) (k <$> y) := by
  rw [map_eq_pure_bind, map_eq_pure_bind]
  exact h.bind fun a b _ _ hab => pure (hf a b hab)

theorem get_bind {f : Context → Lower α} {k : Context → Lower β}
    (h : Lower.Mirrors r R c (f c) (k (c.relabel r))) :
    Lower.Mirrors r R c (get >>= f) (get >>= k) :=
  h

theorem inspect {f : Program → Scope → Checked α} {k : Program → Scope → Checked β}
    (h : Checked.Mirrors R (f c.program c.scope) (k (c.program.relabel r) (c.scope.relabel r))) :
    Lower.Mirrors r R c (Lower.inspect f) (Lower.inspect k) := by
  unfold Lower.Mirrors Lower.inspect
  obtain ⟨a, b, hx, hy, hab⟩ | ⟨e, e', hx, hy, he⟩ := h.cases
  · rw [hx, show k (c.relabel r).program (c.relabel r).scope = _ from hy]
    exact .ok hab
  · rw [hx, show k (c.relabel r).program (c.relabel r).scope = _ from hy]
    exact .error he

/-- A question about the scope in front of the rest. -/
theorem inspect_bind {f k : Program → Scope → Checked α}
    (h : Checked.Mirrors Eq (f c.program c.scope) (k (c.program.relabel r) (c.scope.relabel r)))
    (hg : ∀ a, f c.program c.scope = .ok a → Lower.Mirrors r S c (g a) (l a)) :
    Lower.Mirrors r S c (Lower.inspect f >>= g) (Lower.inspect k >>= l) := by
  refine bind_eq (inspect h) fun a c' ha => ?_
  obtain ⟨hf, rfl⟩ := Lower.inspect_eq_ok.mp ha
  exact hg a hf

/-- A check in front of the rest. -/
theorem check_bind {f k : Program → Checked α}
    (h : Checked.Mirrors Eq (f c.program) (k (c.program.relabel r)))
    (hg : ∀ a, f c.program = .ok a → Lower.Mirrors r S c (g a) (l a)) :
    Lower.Mirrors r S c (Lower.check f >>= g) (Lower.check k >>= l) :=
  inspect_bind (f := fun p _ => f p) (k := fun p _ => k p) h hg

theorem check_pure {f k : Program → Checked α} {g : α → δ}
    (h : Checked.Mirrors Eq (f c.program) (k (c.program.relabel r))) :
    Lower.Mirrors r Eq c (Lower.check f >>= fun a => Pure.pure (g a))
      (Lower.check k >>= fun a => Pure.pure (g a)) :=
  check_bind h fun _ _ => .pure rfl

/-- A check in front of the rest whose results are known. -/
theorem known_bind {f : Program → Checked α} {k : Program → Checked β} {l : β → Lower δ}
    (hf : f c.program = .ok a) (hk : k (c.program.relabel r) = .ok b)
    (h : Lower.Mirrors r S c (g a) (l b)) :
    Lower.Mirrors r S c (Lower.check f >>= g) (Lower.check k >>= l) := by
  have hy : Lower.check k (c.relabel r) = .ok b (c.relabel r) := Lower.check_eq_ok.mpr ⟨hk, rfl⟩
  unfold Lower.Mirrors
  rw [Step.bind_of_ok (Lower.check_eq_ok.mpr ⟨hf, rfl⟩), Step.bind_of_ok hy]
  exact h

theorem build {x y : Build α} (h : Build.Mirrors r c.program x y) :
    Lower.Mirrors r Eq c (Lower.build x) (Lower.build y) := by
  unfold Lower.Mirrors Lower.build
  obtain ⟨a, b, p, hx, hy, hab⟩ | ⟨e, e', p, p', hx, hy, he⟩ := h.cases
  · rw [hx, show y (c.relabel r).program = _ from hy]
    exact .ok hab
  · rw [hx, show y (c.relabel r).program = _ from hy]
    exact .error he

theorem bindName (b : Binding) (hr : Function.Injective r) :
    Lower.Mirrors r Eq c (Lower.bind b) (Lower.bind (b.relabel r)) := by
  have hbind : Checked.Mirrors (fun s s' => s' = s.relabel r) (c.scope.bind b)
      ((c.relabel r).scope.bind (b.relabel r)) := Scope.bind_mirrors hr b c.scope
  unfold Lower.Mirrors Lower.bind
  obtain ⟨scope, scope', hx, hy, rfl⟩ | ⟨e, e', hx, hy, he⟩ := hbind.cases
  · rw [hx, hy]
    exact .ok rfl
  · rw [hx, hy]
    exact .error he

theorem withFrame {frame : Frame} (h : Lower.Mirrors r R { c with scope := frame :: c.scope } x y) :
    Lower.Mirrors r R c (Lower.withFrame frame x) (Lower.withFrame (frame.relabel r) y) := by
  unfold Lower.Mirrors Lower.withFrame
  obtain ⟨a, b, c', hx, hy, hab⟩ | ⟨e, e', c', d', hx, hy, he⟩ := h.cases
  -- the frame is gone afterwards, so the scopes have to correspond without it
  · have hstate : ({ c'.relabel r with scope := (c'.relabel r).scope.tail } : Context) =
        Context.relabel r { c' with scope := c'.scope.tail } := by
      unfold Context.relabel Scope.relabel
      rw [List.map_tail]
    rw [hx, show y { c.relabel r with scope := frame.relabel r :: (c.relabel r).scope } = _ from hy]
    show Step.Mirrored _ _ _ _ (.ok b { c'.relabel r with scope := (c'.relabel r).scope.tail })
    rw [hstate]
    exact .ok hab
  · rw [hx, show y { c.relabel r with scope := frame.relabel r :: (c.relabel r).scope } = _ from hy]
    exact .error he

theorem inScope {scope : Scope} (h : Lower.Mirrors r R { c with scope } x y) :
    Lower.Mirrors r R c (Lower.inScope scope x) (Lower.inScope (scope.relabel r) y) := by
  unfold Lower.Mirrors Lower.inScope
  obtain ⟨a, b, c', hx, hy, hab⟩ | ⟨e, e', c', d', hx, hy, he⟩ := h.cases
  · rw [hx, show y { c.relabel r with scope := scope.relabel r } = _ from hy]
    exact .ok hab
  · rw [hx, show y { c.relabel r with scope := scope.relabel r } = _ from hy]
    exact .error he

/-- A run over lists whose elements correspond, with an invariant that each element keeps. -/
theorem mapM {k : α → α} {k' : α → Lower γ} {t : γ → γ}
    (hf : ∀ x ∈ xs, ∀ c, I c → Lower.Mirrors r (fun y z => z = t y) c (f x) (k' (k x)))
    (hI : ∀ x ∈ xs, ∀ {c c' y}, I c → f x c = .ok y c' → I c') (hc : I c) :
    Lower.Mirrors r (fun ys zs => zs = ys.map t) c (xs.mapM f) ((xs.map k).mapM k') := by
  induction xs generalizing c with
  | nil => exact pure rfl
  | cons x xs ih =>
    obtain ⟨hfx, hfxs⟩ := List.forall_mem_cons.mp hf
    rw [List.map_cons, List.mapM_cons, List.mapM_cons]
    refine bind (hfx c hc) fun y z c' hrun hz => ?_
    have hrest := ih hfxs (fun y hy => hI y (List.mem_cons_of_mem _ hy))
      (hI x List.mem_cons_self hc hrun)
    refine bind hrest fun ys zs _ _ hzs => pure ?_
    rw [hz, hzs, List.map_cons]

theorem forM {f : α → Lower PUnit} {k : α → α} {k' : α → Lower PUnit}
    (hf : ∀ x ∈ xs, ∀ c, I c → Lower.Mirrors r Eq c (f x) (k' (k x)))
    (hI : ∀ x ∈ xs, ∀ {c c' u}, I c → f x c = .ok u c' → I c') (hc : I c) :
    Lower.Mirrors r Eq c (xs.forM f) ((xs.map k).forM k') := by
  induction xs generalizing c with
  | nil => exact pure rfl
  | cons x xs ih =>
    obtain ⟨hfx, hfxs⟩ := List.forall_mem_cons.mp hf
    refine bind_eq (hfx c hc) fun u c' hrun => ?_
    exact ih hfxs (fun y hy => hI y (List.mem_cons_of_mem _ hy)) (hI x List.mem_cons_self hc hrun)

end Lower.Mirrors

/-! ## Typing rules -/

section Rules

variable {r : String → String} {p : Program} {t : Ty}

/-- There are no names in types. -/
theorem Ty.Known.relabel (h : t.Known p) : t.Known (p.relabel r) := by
  induction t with
  | primitive _ => trivial
  | list item ih | set item ih => exact ih h
  | map key value ihk ihv => exact ⟨ihk h.1, ihv h.2⟩
  | model id =>
    obtain ⟨m, hm⟩ := h
    exact ⟨m.relabel r, by rw [getModel?_relabel, hm]; rfl⟩

/-- A type that the program knows has a text. -/
theorem describe_eq_ok (h : t.Known p) : ∃ s, describe p t = .ok s := by
  suffices hname : ∃ s, p.typeName? t = some s by
    obtain ⟨s, hs⟩ := hname
    exact ⟨s, congrArg Checked.ofOption hs⟩
  induction t with
  | primitive t => exact ⟨_, rfl⟩
  | list item ih | set item ih =>
    obtain ⟨s, hs⟩ := ih h
    simp only [Program.typeName?, hs, Option.bind_eq_bind, Option.bind_some, Option.pure_def]
    exact ⟨_, rfl⟩
  | map key value ihk ihv =>
    obtain ⟨s, hs⟩ := ihk h.1
    obtain ⟨s', hs'⟩ := ihv h.2
    simp only [Program.typeName?, hs, hs', Option.bind_eq_bind, Option.bind_some, Option.pure_def]
    exact ⟨_, rfl⟩
  | model id =>
    obtain ⟨m, hm⟩ := h
    rw [Program.typeName?, hm]
    exact ⟨_, rfl⟩

/-- The text of a type may differ, but it is there on both sides. -/
theorem describe_mirrors (h : t.Known p) :
    Checked.Mirrors (fun _ _ => True) (describe p t) (describe (p.relabel r) t) := by
  obtain ⟨s, hs⟩ := describe_eq_ok h
  obtain ⟨s', hs'⟩ := describe_eq_ok (Ty.Known.relabel (r := r) h)
  rw [hs, hs']
  exact .ok trivial

theorem mismatch_mirrors {α : Type} {R : α → α → Prop} {expected expected' : String}
    (h : t.Known p) :
    Checked.Mirrors R (mismatch p expected t) (mismatch (p.relabel r) expected' t) :=
  (describe_mirrors h).bind fun _ _ _ _ => .error ⟨rfl, id⟩

variable {expected : Ty} {part : LiteralPart} {elements : List (Checked Ty)} {e : Expr}

theorem ensureType_mirrors (hexpected : expected.Known p) (h : t.Known p) :
    Checked.Mirrors Eq (ensureType p expected t) (ensureType (p.relabel r) expected t) := by
  unfold ensureType
  split
  · exact .ok rfl
  · exact (describe_mirrors hexpected).bind fun _ _ _ _ => mismatch_mirrors h

theorem unaryOutput_mirrors (op : UnaryOp) (h : t.Known p) :
    Checked.Mirrors Eq (unaryOutput p op t) (unaryOutput (p.relabel r) op t) := by
  unfold unaryOutput
  split
  · exact .ok rfl
  · exact (describe_mirrors h).bind fun _ _ _ _ => .error ⟨rfl, id⟩

theorem binaryOutput_mirrors (op : BinaryOp) {left right : Ty} (hleft : left.Known p)
    (hright : right.Known p) :
    Checked.Mirrors Eq (binaryOutput p op left right)
      (binaryOutput (p.relabel r) op left right) := by
  unfold binaryOutput
  split
  · split
    · exact .error ⟨rfl, id⟩
    · split
      · exact .ok rfl
      · exact .error ⟨rfl, id⟩
  · exact (describe_mirrors hleft).bind fun _ _ _ _ => mismatch_mirrors hright

theorem lookupType_mirrors {container key : Ty} (hcontainer : container.Known p)
    (hkey : key.Known p) :
    Checked.Mirrors Eq (lookupType p container key) (lookupType (p.relabel r) container key) := by
  unfold lookupType
  split
  · exact .bind_eq (ensureType_mirrors trivial hkey) fun _ _ => .ok rfl
  · exact .bind_eq (ensureType_mirrors hcontainer.1 hkey) fun _ _ => .ok rfl
  · exact .bind_eq (ensureType_mirrors trivial hkey) fun _ _ => .ok rfl
  · exact (describe_mirrors hcontainer).bind fun _ _ _ _ => .error ⟨rfl, id⟩

theorem lengthKind_mirrors (h : t.Known p) :
    Checked.Mirrors Eq (lengthKind p t) (lengthKind (p.relabel r) t) := by
  unfold lengthKind
  split
  iterate 4 exact .ok rfl
  exact mismatch_mirrors h

theorem iterableKind_mirrors (h : t.Known p) :
    Checked.Mirrors Eq (iterableKind p t) (iterableKind (p.relabel r) t) := by
  unfold iterableKind
  split
  · exact .ok rfl
  · exact .ok rfl
  · exact mismatch_mirrors h

theorem listItem_mirrors (h : t.Known p) :
    Checked.Mirrors Eq (listItem p t) (listItem (p.relabel r) t) := by
  unfold listItem
  split
  · exact .ok rfl
  · exact mismatch_mirrors h

theorem setItem_mirrors (h : t.Known p) :
    Checked.Mirrors Eq (setItem p t) (setItem (p.relabel r) t) := by
  unfold setItem
  split
  · exact .ok rfl
  · exact mismatch_mirrors h

theorem receiverModel_mirrors (h : t.Known p) :
    Checked.Mirrors Eq (receiverModel p t) (receiverModel (p.relabel r) t) := by
  unfold receiverModel
  split
  · exact .ok rfl
  · exact mismatch_mirrors h

theorem agree_mirrors (hexpected : expected.Known p)
    (h : ∀ x ∈ elements, ∃ t, x = .ok t ∧ t.Known p) :
    Checked.Mirrors Eq (agree p part expected elements)
      (agree (p.relabel r) part expected elements) := by
  induction elements with
  | nil => exact .ok rfl
  | cons element rest ih =>
    obtain ⟨⟨t, rfl, ht⟩, hrest⟩ := List.forall_mem_cons.mp h
    show Checked.Mirrors Eq (if t = expected then _ else _) (if t = expected then _ else _)
    split
    · exact ih hrest
    · exact (describe_mirrors hexpected).bind fun _ _ _ _ =>
        (describe_mirrors ht).bind fun _ _ _ _ => .error ⟨rfl, id⟩

theorem sharedType_mirrors (h : ∀ x ∈ elements, ∃ t, x = .ok t ∧ t.Known p) :
    Checked.Mirrors Eq (sharedType p part elements) (sharedType (p.relabel r) part elements) := by
  cases elements with
  | nil => exact .error ⟨rfl, id⟩
  | cons first rest =>
    obtain ⟨⟨t, rfl, ht⟩, hrest⟩ := List.forall_mem_cons.mp h
    exact (agree_mirrors ht hrest).bind_eq fun _ _ => .ok rfl

theorem requireValueType_mirrors (t : Ty) :
    Checked.Mirrors Eq (requireValueType t) (requireValueType t) := by
  unfold requireValueType
  split
  · exact .error ⟨rfl, id⟩
  · exact .ok rfl

theorem checkTerminal_mirrors (name name' : String) (t : Ty) (body : Block) :
    Checked.Mirrors Eq (checkTerminal name t body) (checkTerminal name' t body) := by
  unfold checkTerminal
  split
  · exact .ok rfl
  · exact .error ⟨rfl, id⟩

/-- An expression has the same type under other names. -/
theorem typeOf_relabel (h : typeOf p e = .ok t) : typeOf (p.relabel r) e = .ok t := by
  refine typeOf_of_kept (fun {id f} hf => ⟨f.relabel r, ?_, rfl⟩) (fun hd => ?_) e h
  · rw [getFunction?_relabel, hf]
    rfl
  · rw [definitionType?_relabel]
    exact hd

theorem checkCondition_mirrors (ht : typeOf p e = .ok t) (h : t.Known p) :
    Checked.Mirrors Eq (checkCondition p e) (checkCondition (p.relabel r) e) := by
  unfold checkCondition
  rw [ht, typeOf_relabel ht]
  show Checked.Mirrors Eq (if t = .bool then _ else _) (if t = .bool then _ else _)
  split
  · exact .ok rfl
  · exact (describe_mirrors h).bind fun _ _ _ _ => .error ⟨rfl, id⟩

theorem checkReturn_mirrors (hexpected : expected.Known p) {value : Option Expr}
    (h : ∀ e ∈ value, ∃ t, typeOf p e = .ok t ∧ t.Known p) :
    Checked.Mirrors Eq (checkReturn p expected value)
      (checkReturn (p.relabel r) expected value) := by
  have hfound {found : Ty} (hknown : found.Known p) : Checked.Mirrors Eq
      (do
        if found = expected then
          return ()
        else
          throw (.returnTypeMismatch (← describe p expected) (← describe p found)) : Checked Unit)
      (do
        if found = expected then
          return ()
        else
          throw (.returnTypeMismatch (← describe (p.relabel r) expected)
            (← describe (p.relabel r) found))) := by
    split
    · exact .ok rfl
    · exact (describe_mirrors hexpected).bind fun _ _ _ _ =>
        (describe_mirrors hknown).bind fun _ _ _ _ => .error ⟨rfl, id⟩
  -- a return of nothing is one of `void`
  cases value with
  | none => exact hfound trivial
  | some e =>
    obtain ⟨t, ht, hknown⟩ := h e rfl
    unfold checkReturn
    dsimp only
    rw [ht, typeOf_relabel ht]
    exact hfound hknown

end Rules

end Scribe.Lowering
