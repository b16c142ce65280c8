import Scribe.Proofs.Cycles
import Scribe.Proofs.HeapTyping
import Scribe.Proofs.Reach
import Scribe.Proofs.WellFormed

/-!
# Safe computations

A computation is safe at a site if it starts in any state that fits the site, ends in one, and stops
early only for a reason that a program can have (`Safe`). There is one rule for each way to build a
computation. Proofs about the machine put these rules together and do not look at states.

The rules speak of families of computations that all do the same. With a family of one they give
type safety; with one computation for each amount of fuel, from some amount on, they say besides
that fuel makes no difference. Which stops without a fault are allowed, and in which storage, is a
parameter of the rules.

Two typings go along with a state. The inner one knows what the code at the site can reach, the
outer one all storage that is typed. They differ while constants are evaluated: a constant reaches
no objects, so no equality and no hash of a model can run before all constants have their values.
-/

namespace Scribe.Machine

open Scribe.Core
open Scribe.Lowering.Step (bind_of_ok bind_of_error)

/-! ## Stops -/

/-- The faults that a program can have. -/
inductive Fault.Documented : Fault → Prop where
  | divisionByZero : Documented .divisionByZero
  | indexOutOfBounds (index : Int64) (length : Nat) : Documented (.indexOutOfBounds index length)
  | missingKey (key : String) : Documented (.missingKey key)
  | popFromEmptyList : Documented .popFromEmptyList
  | nullDereference : Documented .nullDereference
  | nullExpected (got : String) : Documented (.typeMismatch "null" got)
  | nullGot (expected : String) : Documented (.typeMismatch expected "null")
  | notARune (code : Int64) : Documented (.invalidOperation (.notARune code))
  | cannotApplyToNull (op : String) : Documented (.invalidOperation (.cannotApply op "null"))
  | localUnset (name : String) : Documented (.invalidOperation (.localUnset name))

/-- Why a run can stop. Two of the reasons are limits of the machine: the length of a run, and the
largest integer, where a length is asked for. -/
inductive Stop.Accepted : Stop → Prop where
  | exhausted : Accepted .exhausted
  | endless (map : Address) (key : Value) : Accepted (.endless map key)
  | fault {f : Fault} (h : f.Documented) : Accepted (.fault f)
  | lengthOverflow : Accepted (.fault (.invalidOperation .lengthOverflow))

/-- A result with `Q`, or a fault for which a run can stop. -/
def Answers {α : Type} (Q : α → Prop) : Except Fault α → Prop
  | .ok a => Q a
  | .error f => (Stop.fault f).Accepted

/-! ## Worlds -/

/-- What is known about storage: at the site, and in all. -/
structure World where
  inner : Typing
  outer : Typing
  le : inner.Le outer

/-- A world where more is known. -/
structure World.Le (w w' : World) : Prop where
  inner : w.inner.Le w'.inner
  outer : w.outer.Le w'.outer

theorem World.Le.refl (w : World) : w.Le w :=
  ⟨.refl _, .refl _⟩

theorem World.Le.trans {w1 w2 w3 : World} (h1 : w1.Le w2) (h2 : w2.Le w3) : w1.Le w3 :=
  ⟨h1.inner.trans h2.inner, h1.outer.trans h2.outer⟩

/-- Storage that is typed as a world says. -/
structure World.Types (p : Program) (w : World) (h : Heap) : Prop where
  inner : HeapTyped p w.inner h
  outer : HeapTyped p w.outer h

namespace World.Types

variable {p : Program} {w : World} {h : Heap} (hw : w.Types p h)

include hw

theorem newList {item : Ty} {items : Array Value} (hitems : ItemsTyped w.inner item items) :
    ∃ w' : World, w.Le w' ∧ w'.Types p (h.newList items).2 ∧
      w'.inner.lists (h.newList items).1 = some item ∧ w'.inner.objects = w.inner.objects := by
  obtain ⟨hle, htyped⟩ := hw.inner.newList hitems
  obtain ⟨hle', htyped'⟩ := hw.outer.newList (hitems.mono w.le)
  exact ⟨⟨_, _, w.le.withList _ item⟩, ⟨hle, hle'⟩, ⟨htyped, htyped'⟩, assignAt_same _ _ _, rfl⟩

theorem newSet {item : Ty} {items : Array Value} (hitems : ItemsTyped w.inner item items) :
    ∃ w' : World, w.Le w' ∧ w'.Types p (h.newSet items).2 ∧
      w'.inner.sets (h.newSet items).1 = some item ∧ w'.inner.objects = w.inner.objects := by
  obtain ⟨hle, htyped⟩ := hw.inner.newSet hitems
  obtain ⟨hle', htyped'⟩ := hw.outer.newSet (hitems.mono w.le)
  exact ⟨⟨_, _, w.le.withSet _ item⟩, ⟨hle, hle'⟩, ⟨htyped, htyped'⟩, assignAt_same _ _ _, rfl⟩

theorem newMap {key value : Ty} {entries : Array (Value × Value)}
    (hentries : EntriesTyped w.inner (key, value) entries) :
    ∃ w' : World, w.Le w' ∧ w'.Types p (h.newMap entries).2 ∧
      w'.inner.maps (h.newMap entries).1 = some (key, value) ∧
      w'.inner.objects = w.inner.objects := by
  obtain ⟨hle, htyped⟩ := hw.inner.newMap hentries
  obtain ⟨hle', htyped'⟩ := hw.outer.newMap (hentries.mono w.le)
  exact ⟨⟨_, _, w.le.withMap _ key value⟩, ⟨hle, hle'⟩, ⟨htyped, htyped'⟩, assignAt_same _ _ _,
    rfl⟩

theorem newObject {id : ModelId} {name : String} {fields : Array Value}
    (hobject : ObjectTyped p w.inner id ⟨name, fields⟩) :
    ∃ w' : World, w.Le w' ∧ w'.Types p (h.newObject name fields).2 ∧
      w'.inner.objects (h.newObject name fields).1 = some id := by
  obtain ⟨hle, htyped⟩ := hw.inner.newObject hobject
  obtain ⟨hle', htyped'⟩ := hw.outer.newObject (hobject.mono w.le)
  exact ⟨⟨_, _, w.le.withObject _ id⟩, ⟨hle, hle'⟩, ⟨htyped, htyped'⟩, assignAt_same _ _ _⟩

end World.Types

/-! ## States -/

/-- The frame of a callable: a receiver if it belongs to a model, an argument for each parameter,
and locals of their types. The frame of a constant is empty. -/
structure FrameTyped (p : Program) (callable : Option Callable) (τ : Typing) (f : Frame) :
    Prop where
  receiver : ∀ {model}, callable.bind p.owner? = some model →
    ∃ a, f.receiver = some (.object model a) ∧ τ.objects a = some model
  arguments : ∀ {id g}, callable = some (.function id) →
    p.getFunction? id = some g → AllTyped τ f.arguments (g.parameters.map (·.type))
  locals : ∀ {id v l}, f.locals.lookup id = some v → p.getLocal? id = some l → HasType τ v l.type

theorem FrameTyped.empty (p : Program) (τ : Typing) : FrameTyped p none τ {} :=
  ⟨by rintro _ ⟨⟩, by rintro _ _ ⟨⟩, by rintro _ _ _ ⟨⟩⟩

variable {p : Program} {s : State} {site : Site} {w : World}

theorem FrameTyped.mono {callable : Option Callable} {τ τ' : Typing} (h : τ.Le τ') {f : Frame}
    (hf : FrameTyped p callable τ f) : FrameTyped p callable τ' f := by
  refine ⟨?_, fun hc hg => (hf.arguments hc hg).mono h, fun hv hl => (hf.locals hv hl).mono h⟩
  intro model hm
  obtain ⟨a, hr, ha⟩ := hf.receiver hm
  exact ⟨a, hr, h.objects _ _ ha⟩

/-- The constants that have values have values of their types. -/
def ConstantsTyped (p : Program) (τ : Typing) (constants : List (ConstantId × Value)) : Prop :=
  ∀ id v, constants.lookup id = some v → ∃ c, p.getConstant? id = some c ∧ HasType τ v c.type

theorem ConstantsTyped.mono {τ τ' : Typing} (h : τ.Le τ') {constants : List (ConstantId × Value)}
    (hc : ConstantsTyped p τ constants) : ConstantsTyped p τ' constants := by
  intro id v hv
  obtain ⟨c, hc, ht⟩ := hc id v hv
  exact ⟨c, hc, ht.mono h⟩

/-- A state in which code at a site can run. -/
structure Ready (p : Program) (site : Site) (w : World) (s : State) : Prop where
  heap : w.Types p s.heap
  stored : ConstantsTyped p w.outer s.constants
  constants : ∀ {id c}, p.getConstant? id = some c →
    id.index < site.constants ∨ site.callable.isSome →
      ∃ v, s.constants.lookup id = some v ∧ HasType w.inner v c.type
  frame : ∃ f rest, s.frames = f :: rest ∧ FrameTyped p site.callable w.inner f
  plain : site.callable = none → ∀ a, w.inner.objects a = none

/-- A later state: the frames further out and the constants are as before. -/
structure Keeps (p : Program) (site : Site) (w : World) (s : State) (w' : World) (s' : State) :
    Prop where
  le : w.Le w'
  ready : Ready p site w' s'
  frames : s'.frames.tail = s.frames.tail
  constants : s'.constants = s.constants

theorem Keeps.refl (h : Ready p site w s) : Keeps p site w s w s :=
  ⟨.refl w, h, rfl, rfl⟩

theorem Keeps.trans {w1 w2 w3 : World} {s1 s2 s3 : State} (h1 : Keeps p site w1 s1 w2 s2)
    (h2 : Keeps p site w2 s2 w3 s3) : Keeps p site w1 s1 w3 s3 :=
  ⟨h1.le.trans h2.le, h2.ready, h2.frames.trans h1.frames, h2.constants.trans h1.constants⟩

/-- A state that differs in storage only. -/
theorem Ready.withHeap {w w' : World} (hs : Ready p site w s) (hle : w.Le w') {heap : Heap}
    (hheap : w'.Types p heap) (hplain : w'.inner.objects = w.inner.objects ∨ site.callable.isSome) :
    Keeps p site w s w' { s with heap } := by
  refine ⟨hle, ⟨hheap, hs.stored.mono hle.outer, ?_, ?_, ?_⟩, rfl, rfl⟩
  · intro id c hc hsite
    obtain ⟨v, hv, ht⟩ := hs.constants hc hsite
    exact ⟨v, hv, ht.mono hle.inner⟩
  · obtain ⟨f, rest, hframes, hf⟩ := hs.frame
    exact ⟨f, rest, hframes, hf.mono hle.inner⟩
  · intro hnone
    obtain hobjects | hsome := hplain
    · rw [hobjects]
      exact hs.plain hnone
    · rw [hnone] at hsome
      cases hsome

/-! ## Safety -/

/-- A reason to stop in some storage. To stop without a fault is left for what `X` allows. -/
def Stop.Allowed (X : Stop → Heap → Prop) (stop : Stop) (h : Heap) : Prop :=
  stop.Accepted ∧ ((∀ f, stop ≠ .fault f) → X stop h)

/-- Computations, one for each index, that do the same from a state and end well there: with a
result and a state that fit together, or with a stop and a state that may be left. -/
inductive Ends {ι α : Type} (act : ι → Exec α) (s : State) (Q : α → State → Prop)
    (E : Stop → State → Prop) : Prop where
  | ok {a : α} {s' : State} (hrun : ∀ i, act i s = .ok a s') (h : Q a s') : Ends act s Q E
  | error {stop : Stop} {s' : State} (hrun : ∀ i, act i s = .error stop s') (h : E stop s') :
      Ends act s Q E

namespace Ends

variable {ι α β : Type} {act : ι → Exec α} {s : State} {Q Q' : α → State → Prop}
  {R : β → State → Prop} {E E' : Stop → State → Prop}

theorem imp (h : Ends act s Q E) (hQ : ∀ a s', Q a s' → Q' a s')
    (hE : ∀ stop s', E stop s' → E' stop s') : Ends act s Q' E' := by
  cases h with
  | ok hrun h => exact .ok hrun (hQ _ _ h)
  | error hrun h => exact .error hrun (hE _ _ h)

theorem of_eq (h : Ends act s Q E) {act' : ι → Exec α} {s' : State}
    (heq : ∀ i, act' i s' = act i s) : Ends act' s' Q E := by
  cases h with
  | ok hrun h => exact .ok (fun i => (heq i).trans (hrun i)) h
  | error hrun h => exact .error (fun i => (heq i).trans (hrun i)) h

theorem reindex (h : Ends act s Q E) {κ : Type} (f : κ → ι) : Ends (fun k => act (f k)) s Q E := by
  cases h with
  | ok hrun h => exact .ok (fun k => hrun (f k)) h
  | error hrun h => exact .error (fun k => hrun (f k)) h

theorem of_ok (h : Ends act s Q E) (i : ι) {a : α} {s' : State} (hr : act i s = .ok a s') :
    Q a s' := by
  cases h with
  | ok hrun h =>
    cases (hrun i).symm.trans hr
    exact h
  | error hrun h => cases (hrun i).symm.trans hr

theorem of_error (h : Ends act s Q E) (i : ι) {stop : Stop} {s' : State}
    (hr : act i s = .error stop s') : E stop s' := by
  cases h with
  | ok hrun h => cases (hrun i).symm.trans hr
  | error hrun h =>
    cases (hrun i).symm.trans hr
    exact h

theorem bind {f : ι → α → Exec β} (hx : Ends act s Q E)
    (hf : ∀ a s', (∀ i, act i s = .ok a s') → Q a s' → Ends (fun i => f i a) s' R E) :
    Ends (fun i => act i >>= f i) s R E := by
  cases hx with
  | ok hrun h => exact (hf _ _ hrun h).of_eq fun i => bind_of_ok (hrun i)
  | error hrun h => exact .error (fun i => bind_of_error (hrun i)) h

/-- What is looked up comes from the storage of the state. -/
theorem look_bind {f : Heap → α} {g : ι → α → Exec β}
    (h : Ends (fun i => g i (f s.heap)) s R E) : Ends (fun i => Exec.look f >>= g i) s R E :=
  h.of_eq fun _ => rfl

theorem withFrame {f : Frame}
    (h : Ends act { s with frames := f :: s.frames }
      (fun a s' => Q a { s' with frames := s'.frames.tail })
      fun stop s' => E stop { s' with frames := s'.frames.tail }) :
    Ends (fun i => Exec.withFrame f (act i)) s Q E := by
  cases h with
  | ok hrun h => exact .ok (fun i => withFrame_of_ok (hrun i)) h
  | error hrun h => exact .error (fun i => withFrame_of_error (hrun i)) h

end Ends

/-- Computations that are safe in a world and a state and give results with `Q`. -/
def SafeAt {ι α : Type} (X : Stop → Heap → Prop) (p : Program) (site : Site) (w : World) (s : State)
    (act : ι → Exec α) (Q : World → α → Prop) : Prop :=
  Ends act s (fun a s' => ∃ w', Keeps p site w s w' s' ∧ Q w' a)
    fun stop s' => stop.Allowed X s'.heap ∧ ∃ w', Keeps p site w s w' s'

/-- Computations that are safe in a world and give results with `Q`. -/
def Safe {ι α : Type} (X : Stop → Heap → Prop) (p : Program) (site : Site) (w : World)
    (act : ι → Exec α) (Q : World → α → Prop) : Prop :=
  ∀ s, Ready p site w s → SafeAt X p site w s act Q

/-- A state outside of any body, in which every constant has its value. -/
structure Settled (p : Program) (w : World) (s : State) : Prop where
  heap : w.Types p s.heap
  stored : ConstantsTyped p w.outer s.constants
  constants : ∀ {id c}, p.getConstant? id = some c →
    ∃ v, s.constants.lookup id = some v ∧ HasType w.inner v c.type

/-- A later state: the frames and the constants are as before. -/
structure Returns (p : Program) (w : World) (s : State) (w' : World) (s' : State) : Prop where
  le : w.Le w'
  settled : Settled p w' s'
  frames : s'.frames = s.frames
  constants : s'.constants = s.constants

/-- Computations that are safe whatever frames there are, and leave them alone. -/
def Calls {ι α : Type} (X : Stop → Heap → Prop) (p : Program) (w : World) (act : ι → Exec α)
    (Q : World → α → Prop) : Prop :=
  ∀ s, Settled p w s → Ends act s (fun a s' => ∃ w', Returns p w s w' s' ∧ Q w' a)
    fun stop s' => stop.Allowed X s'.heap ∧ ∃ w', Returns p w s w' s'

theorem SafeAt.bind {ι α β : Type} {X : Stop → Heap → Prop} {Q : World → α → Prop}
    {R : World → β → Prop} {x : ι → Exec α} {f : ι → α → Exec β} (hx : SafeAt X p site w s x Q)
    (hf : ∀ w' a s', (∀ i, x i s = .ok a s') → Keeps p site w s w' s' → Q w' a →
      SafeAt X p site w' s' (fun i => f i a) R) : SafeAt X p site w s (fun i => x i >>= f i) R := by
  refine Ends.bind hx fun a s' hrun h => ?_
  obtain ⟨w', hk, hQ⟩ := h
  refine (hf w' a s' hrun hk hQ).imp (fun b s'' h => ?_) fun stop s'' h => ?_
  · obtain ⟨w'', hk', hR⟩ := h
    exact ⟨w'', hk.trans hk', hR⟩
  · obtain ⟨hstop, w'', hk'⟩ := h
    exact ⟨hstop, w'', hk.trans hk'⟩

namespace Safe

variable {ι α β : Type} {X : Stop → Heap → Prop} {p : Program} {site : Site} {w : World}
  {Q : World → α → Prop} {R : World → β → Prop}

/-! ### Sequences -/

variable {a : α} {x : ι → Exec α} {f : ι → α → Exec β}

theorem pure (h : Q w a) : Safe X p site w (fun _ : ι => pure a) Q :=
  fun _ hs => .ok (fun _ => rfl) ⟨w, .refl hs, h⟩

theorem imp {Q' : World → α → Prop} (hx : Safe X p site w x Q)
    (hQ : ∀ w' a, w.Le w' → Q w' a → Q' w' a) : Safe X p site w x Q' := by
  intro s hs
  refine (hx s hs).imp (fun a s' h => ?_) fun _ _ h => h
  obtain ⟨w', hk, hQa⟩ := h
  exact ⟨w', hk, hQ w' a hk.le hQa⟩

theorem bind (hx : Safe X p site w x Q)
    (hf : ∀ w' a, w.Le w' → Q w' a → Safe X p site w' (fun i => f i a) R) :
    Safe X p site w (fun i => x i >>= f i) R :=
  fun s hs => (hx s hs).bind fun w' a s' _ hk hQ => hf w' a hk.le hQ s' hk.ready

/-! ### Stops -/

theorem stop {f : Fault} (h : (Stop.fault f).Accepted) :
    Safe X p site w (fun _ : ι => (Exec.fault f : Exec α)) Q :=
  fun _ hs => .error (fun _ => rfl) ⟨⟨h, fun hne => (hne f rfl).elim⟩, w, .refl hs⟩

theorem fault {f : Fault} (h : f.Documented) :
    Safe X p site w (fun _ : ι => (Exec.fault f : Exec α)) Q :=
  stop (.fault h)

theorem exhausted (hX : ∀ h, X .exhausted h) :
    Safe X p site w (fun _ : ι => (throw .exhausted : Exec α)) Q :=
  fun _ hs => .error (fun _ => rfl) ⟨⟨.exhausted, fun _ => hX _⟩, w, .refl hs⟩

theorem ofExcept {x : Except Fault α} (h : Answers (Q w) x) :
    Safe X p site w (fun _ : ι => Exec.ofExcept x) Q := by
  cases x with
  | ok a => exact pure h
  | error f => exact stop h

theorem ofOption_bind {o : Option α} (ho : o = some a) (hf : Safe X p site w (fun i => f i a) R) :
    Safe X p site w (fun i => Exec.ofOption o >>= f i) R := by
  subst ho
  exact hf

/-! ### Storage -/

theorem look {f : Heap → α} (h : ∀ heap, HeapTyped p w.inner heap → Q w (f heap)) :
    Safe X p site w (fun _ : ι => Exec.look f) Q :=
  fun s hs => .ok (fun _ => rfl) ⟨w, .refl hs, h s.heap hs.heap.inner⟩

variable {a : Address}

variable {item : Ty} {id : ModelId} {items : Array Value} {x : ι → Exec α} {v : Value} {i : Nat}
  {f : Field}

theorem lookList (ha : w.inner.lists a = some item) :
    Safe X p site w (fun _ : ι => Exec.look (·.list a))
      fun w' items => ItemsTyped w'.inner item items :=
  look fun _ hheap => hheap.items_list ha

theorem lookSet (ha : w.inner.sets a = some item) :
    Safe X p site w (fun _ : ι => Exec.look (·.set a))
      fun w' items => ItemsTyped w'.inner item items :=
  look fun _ hheap => hheap.items_set ha

theorem lookMap {t : Ty × Ty} (ha : w.inner.maps a = some t) :
    Safe X p site w (fun _ : ι => Exec.look (·.map a))
      fun w' entries => EntriesTyped w'.inner t entries :=
  look fun _ hheap => hheap.entries_map ha

theorem lookFields (ha : w.inner.objects a = some id) :
    Safe X p site w (fun _ : ι => Exec.look (·.fields a))
      fun w' fields => FieldsTyped p w'.inner id fields :=
  look fun _ hheap => hheap.fields_object ha

theorem change {f : Heap → Heap}
    (h : ∀ τ heap, w.inner.Le τ → HeapTyped p τ heap → HeapTyped p τ (f heap)) :
    Safe X p site w (fun _ : ι => Exec.change f) fun _ _ => True := by
  intro s hs
  -- the change has to be right in both typings of the world
  refine .ok (fun _ => rfl) ⟨w, hs.withHeap (.refl w) ⟨?_, ?_⟩ (.inl rfl), trivial⟩
  · exact h w.inner s.heap (.refl _) hs.heap.inner
  · exact h w.outer s.heap w.le hs.heap.outer

theorem alloc {f : Heap → Address × Heap} {Q : World → Address → Prop}
    (h : ∀ heap, w.Types p heap → ∃ w' : World, w.Le w' ∧ w'.Types p (f heap).2 ∧
      Q w' (f heap).1 ∧ (w'.inner.objects = w.inner.objects ∨ site.callable.isSome)) :
    Safe X p site w (fun _ : ι => Exec.alloc f) Q := by
  intro s hs
  obtain ⟨w', hle, htypes, hQ, hplain⟩ := h s.heap hs.heap
  exact .ok (fun _ => rfl) ⟨w', hs.withHeap hle htypes hplain, hQ⟩

theorem newList (hitems : ItemsTyped w.inner item items) :
    Safe X p site w (fun _ : ι => Exec.alloc (·.newList items))
      fun w' a => w'.inner.lists a = some item := by
  refine alloc fun heap hw => ?_
  obtain ⟨w', hle, hw', ha, hobjects⟩ := hw.newList hitems
  exact ⟨w', hle, hw', ha, .inl hobjects⟩

theorem newSet (hitems : ItemsTyped w.inner item items) :
    Safe X p site w (fun _ : ι => Exec.alloc (·.newSet items))
      fun w' a => w'.inner.sets a = some item := by
  refine alloc fun heap hw => ?_
  obtain ⟨w', hle, hw', ha, hobjects⟩ := hw.newSet hitems
  exact ⟨w', hle, hw', ha, .inl hobjects⟩

theorem newMap {key value : Ty} {entries : Array (Value × Value)}
    (hentries : EntriesTyped w.inner (key, value) entries) :
    Safe X p site w (fun _ : ι => Exec.alloc (·.newMap entries))
      fun w' a => w'.inner.maps a = some (key, value) := by
  refine alloc fun heap hw => ?_
  obtain ⟨w', hle, hw', ha, hobjects⟩ := hw.newMap hentries
  exact ⟨w', hle, hw', ha, .inl hobjects⟩

/-- Where there is an object, its model is there too, and the site is no constant. -/
theorem object (ha : w.inner.objects a = some id)
    (h : ∀ m, p.getModel? id = some m → site.callable.isSome → Safe X p site w x Q) :
    Safe X p site w x Q := by
  intro s hs
  obtain ⟨_, _, m, hm, _⟩ := hs.heap.inner.objects a id ha
  cases hc : site.callable with
  | none =>
    have hnone := hs.plain hc a
    rw [ha] at hnone
    cases hnone
  | some c => exact h m hm (by rw [hc]; rfl) s hs

/-! ### Frames -/

theorem get_bind {f : State → Exec α} {s : State} : (get >>= f) s = f s s :=
  rfl

theorem frame : Safe X p site w (fun _ : ι => Exec.frame)
    fun w' f => FrameTyped p site.callable w'.inner f := by
  intro s hs
  obtain ⟨f, rest, hframes, hf⟩ := hs.frame
  have hrun : Exec.frame s = .ok f s := by
    rw [Exec.frame, get_bind, hframes]
    rfl
  exact .ok (fun _ => hrun) ⟨w, .refl hs, hf⟩

theorem setFrame {g : Frame → Frame}
    (h : ∀ f, FrameTyped p site.callable w.inner f → FrameTyped p site.callable w.inner (g f)) :
    Safe X p site w (fun _ : ι => Exec.setFrame g) fun _ _ => True := by
  intro s hs
  obtain ⟨f, rest, hframes, hf⟩ := hs.frame
  have hrun : Exec.setFrame g s = .ok () { s with frames := g f :: rest } := by
    unfold Exec.setFrame
    rw [hframes]
  refine .ok (fun _ => hrun) ⟨w, ⟨.refl w, ⟨hs.heap, hs.stored, hs.constants,
    ⟨g f, rest, rfl, h f hf⟩, hs.plain⟩, ?_, rfl⟩, trivial⟩
  rw [hframes]
  rfl

/-- A call can be made from the body of any callable. -/
theorem call (hsite : site.callable.isSome) (hx : Calls X p w x Q) : Safe X p site w x Q := by
  intro s hs
  have hback {w' : World} {s' : State} (hr : Returns p w s w' s') : Keeps p site w s w' s' := by
    refine ⟨hr.le, ⟨hr.settled.heap, hr.settled.stored, fun hc _ => hr.settled.constants hc, ?_,
      ?_⟩, congrArg List.tail hr.frames, hr.constants⟩
    · obtain ⟨f, rest, hframes, hf⟩ := hs.frame
      exact ⟨f, rest, hr.frames.trans hframes, hf.mono hr.le.inner⟩
    · intro hnone
      rw [hnone] at hsite
      cases hsite
  refine (hx s ⟨hs.heap, hs.stored, fun hc => hs.constants hc (.inr hsite)⟩).imp
    (fun a s' h => ?_) fun stop s' h => ?_
  · obtain ⟨w', hr, hQ⟩ := h
    exact ⟨w', hback hr, hQ⟩
  · obtain ⟨hstop, w', hr⟩ := h
    exact ⟨hstop, w', hback hr⟩

theorem setLocal {id : LocalId} {l : Local} (hl : p.getLocal? id = some l)
    (hv : HasType w.inner v l.type) :
    Safe X p site w (fun _ : ι => Exec.setLocal id v) fun _ _ => True := by
  refine setFrame fun f hf => ⟨hf.receiver, hf.arguments, ?_⟩
  intro id' v' l' hlookup hl'
  have hlookup : (assocInsert id v f.locals).lookup id' = some v' := hlookup
  rw [lookup_assocInsert] at hlookup
  by_cases h : id' = id
  · rw [if_pos h] at hlookup
    rw [h] at hl'
    cases hl.symm.trans hl'
    rw [← Option.some.inj hlookup]
    exact hv
  · rw [if_neg h] at hlookup
    exact hf.locals hlookup hl'

/-- The receiver at a site that belongs to a model. -/
theorem receiver {model : ModelId} (h : site.owner? p = some model) :
    Safe X p site w (fun _ : ι => Exec.receiver) fun w' r =>
      r.1 = model ∧ w'.inner.objects r.2 = some model := by
  unfold Exec.receiver
  refine bind frame fun w' f _ hf => ?_
  obtain ⟨a, hr, ha⟩ := hf.receiver h
  rw [hr]
  exact pure ⟨rfl, ha⟩

/-! ### Objects and lists -/

theorem getField {a : Address} (ha : w.inner.objects a = some id) (hf : p.getField? id i = some f) :
    Safe X p site w (fun _ : ι => Exec.getField a i) fun w' v => HasType w'.inner v f.type := by
  unfold Exec.getField
  refine bind (lookFields ha) ?_
  rintro w' fields _ ⟨m, hm, hall⟩
  obtain ⟨m', hm', hi⟩ := Option.bind_eq_some_iff.mp hf
  cases hm.symm.trans hm'
  obtain ⟨v, hv, ht⟩ := forall₂_getElem? hall (by rw [List.getElem?_map, hi]; rfl)
  rw [← Array.getElem?_toList, hv]
  exact pure ht

theorem setField {a : Address} (ha : w.inner.objects a = some id) (hf : p.getField? id i = some f)
    (hv : HasType w.inner v f.type) :
    Safe X p site w (fun _ : ι => Exec.setField a i v) fun _ _ => True := by
  obtain ⟨m, hm, hi⟩ := Option.bind_eq_some_iff.mp hf
  unfold Exec.setField
  refine bind (lookFields ha) ?_
  rintro w' fields hle ⟨m', hm', hall⟩
  cases hm.symm.trans hm'
  -- an object has as many fields as its model declares
  have hlt : i < fields.size := by
    obtain ⟨hi, _⟩ := List.getElem?_eq_some_iff.mp hi
    rw [← Array.length_toList, hall.length_eq, List.length_map]
    exact hi
  rw [if_pos hlt]
  refine change fun τ heap hτ hheap => ?_
  exact hheap.setField (hτ.objects _ _ (hle.inner.objects _ _ ha)) hm hi
    ((hv.mono hle.inner).mono hτ)

theorem popList (hv : HasType w.inner v (.list item)) :
    Safe X p site w (fun _ : ι => Exec.popList v) fun w' v => HasType w'.inner v item := by
  cases hv with
  | null _ => exact fault .nullDereference
  | @list a _ ha =>
    unfold Exec.popList
    refine bind (look (Q := fun w v? => ∀ v, v? = some v → HasType w.inner v item) ?_) ?_
    · intro heap hheap v hv
      exact hheap.items_list ha v (Array.mem_of_back? hv)
    · intro w' v? hle hv?
      cases v? with
      | none => exact fault .popFromEmptyList
      | some v =>
        refine bind (change fun τ heap hτ hheap => ?_) fun w'' _ hle' _ => ?_
        · exact hheap.popItem (hτ.lists _ _ (hle.inner.lists _ _ ha))
        · exact pure ((hv? v rfl).mono hle'.inner)

end Safe

/-! ### Calls -/

/-- The body of a callable can run in a frame that fits it. -/
theorem Settled.ready (hs : Settled p w s) {callee : Site} {f : Frame}
    (hcallee : callee.callable.isSome) (hf : FrameTyped p callee.callable w.inner f) :
    Ready p callee w { s with frames := f :: s.frames } := by
  refine ⟨hs.heap, hs.stored, fun hc _ => hs.constants hc, ⟨f, s.frames, rfl, hf⟩, ?_⟩
  intro hnone
  rw [hnone] at hcallee
  cases hcallee

/-- A call enters the site of its callee and comes back from there. -/
theorem Calls.withFrame {ι α : Type} {X : Stop → Heap → Prop} {Q : World → α → Prop} {callee : Site}
    {f : Frame} {x : ι → Exec α} (hcallee : callee.callable.isSome)
    (hf : FrameTyped p callee.callable w.inner f) (hx : Safe X p callee w x Q) :
    Calls X p w (fun i => Exec.withFrame f (x i)) Q := by
  intro s hs
  have hback {w' : World} {s' : State}
      (hk : Keeps p callee w { s with frames := f :: s.frames } w' s') :
      Returns p w s w' { s' with frames := s'.frames.tail } :=
    ⟨hk.le, ⟨hk.ready.heap, hk.ready.stored, fun hc => hk.ready.constants hc (.inr hcallee)⟩,
      hk.frames, hk.constants⟩
  refine .withFrame ((hx _ (hs.ready hcallee hf)).imp (fun a s' h => ?_) fun stop s' h => ?_)
  · obtain ⟨w', hk, hQ⟩ := h
    exact ⟨w', hback hk, hQ⟩
  · obtain ⟨hstop, w', hk⟩ := h
    exact ⟨hstop, w', hback hk⟩

end Scribe.Machine
