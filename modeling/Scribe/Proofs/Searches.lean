import Scribe.Proofs.Reach

/-!
# Computations that only read

Searches, comparisons of containers and hashes look into storage and go through the parts. If every
part gives an answer and changes nothing, then so does the whole, and its answer is a function of
theirs (`Reads`). So computations that agree on the parts agree on the whole (`Decides`).
-/

namespace Scribe.Machine

open Scribe.Core
open Scribe.Lowering.Step (bind_of_ok)

/-! ## Computations that only read -/

/-- A computation gives an answer on some storage, in any frames, and changes nothing. -/
def Reads {α : Type} (h : Heap) (act : Exec α) (answer : α) : Prop :=
  ∀ s, s.heap = h → act s = .ok answer s

namespace Reads

variable {α β : Type} {h : Heap}

theorem pure (a : α) : Reads h (pure a) a :=
  fun _ _ => rfl

theorem bind {x : Exec α} {f : α → Exec β} {a : α} {b : β} (hx : Reads h x a)
    (hf : Reads h (f a) b) : Reads h (x >>= f) b :=
  fun s hs => (bind_of_ok (hx s hs)).trans (hf s hs)

theorem look (f : Heap → α) : Reads h (Exec.look f) (f h) := by
  intro s hs
  rw [Exec.look, hs]

theorem congr {x : Exec α} {a b : α} (hx : Reads h x a) (hab : a = b) : Reads h x b :=
  hab ▸ hx

/-! ### Searching -/

section Search

variable {eq : Value → Value → Exec Bool} {same : Value → Value → Bool}

variable {γ : Type} {test : γ → Bool} {value : Value} {xs : List γ} {items : List Value}
  {entries : List (Value × Value)}

/-- What a search finds among the values of some things, as it is said of the things. -/
theorem positionFrom_map (f : γ → Value) (heq : ∀ x ∈ xs, Reads h (eq (f x) value) (test x))
    (index : Nat) :
    Reads h (positionFrom eq value index (xs.map f)) ((xs.findIdx? test).map (· + index)) := by
  induction xs generalizing index with
  | nil => exact pure none
  | cons x rest ih =>
    obtain ⟨hfirst, hrest⟩ := List.forall_mem_cons.mp heq
    rw [List.findIdx?_cons]
    refine bind hfirst ?_
    cases test x with
    | true => exact (pure (some index)).congr (by simp)
    | false => exact (ih hrest (index + 1)).congr (by simp [Function.comp_def, Nat.add_assoc,
        Nat.add_comm 1 index])

theorem position_map (f : γ → Value) (heq : ∀ x ∈ xs, Reads h (eq (f x) value) (test x)) :
    Reads h (position eq (xs.map f) value) (xs.findIdx? test) :=
  (positionFrom_map f heq 0).congr (by simp)

theorem position (heq : ∀ v ∈ items, Reads h (eq v value) (same v value)) :
    Reads h (position eq items value) (items.findIdx? (same · value)) := by
  simpa using position_map id heq

theorem findKey {key : Value} (heq : ∀ e ∈ entries, Reads h (eq e.1 key) (same e.1 key)) :
    Reads h (findKey eq entries key) (entries.findIdx? fun e => same e.1 key) :=
  position_map Prod.fst heq

theorem itemsEqual_map (f : γ → Value) {test : γ → γ → Bool} {ys : List γ}
    (heq : ∀ x ∈ xs, ∀ y ∈ ys, Reads h (eq (f x) (f y)) (test x y)) :
    Reads h (itemsEqual eq (xs.map f) (ys.map f)) ((xs.zip ys).all fun z => test z.1 z.2) := by
  induction xs generalizing ys with
  | nil => exact pure true
  | cons x xs ih =>
    cases ys with
    | nil => exact pure true
    | cons y ys =>
      obtain ⟨hfirst, hrest⟩ := List.forall_mem_cons.mp heq
      rw [List.zip_cons_cons, List.all_cons]
      refine bind (hfirst y List.mem_cons_self) ?_
      cases test x y with
      | true => exact ih fun x hx y hy => hrest x hx y (List.mem_cons_of_mem _ hy)
      | false => exact pure false

theorem itemsEqual {as bs : List Value}
    (heq : ∀ a ∈ as, ∀ b ∈ bs, Reads h (eq a b) (same a b)) :
    Reads h (itemsEqual eq as bs) ((as.zip bs).all fun x => same x.1 x.2) := by
  simpa using itemsEqual_map id heq

theorem elementsFound_map (f : γ → Value) {test : γ → γ → Bool} {others : List γ}
    (heq : ∀ a ∈ others, ∀ b ∈ xs, Reads h (eq (f a) (f b)) (test a b)) :
    Reads h (elementsFound eq (others.map f) (xs.map f))
      (xs.all fun b => others.any fun a => test a b) := by
  induction xs with
  | nil => exact pure true
  | cons x rest ih =>
    rw [List.all_cons, ← List.findIdx?_isSome]
    refine bind (position_map f fun a ha => heq a ha x List.mem_cons_self) ?_
    cases others.findIdx? fun a => test a x with
    | none => exact pure false
    | some i => exact ih fun a ha b hb => heq a ha b (List.mem_cons_of_mem _ hb)

theorem elementsFound {others : List Value}
    (heq : ∀ a ∈ others, ∀ b ∈ items, Reads h (eq a b) (same a b)) :
    Reads h (elementsFound eq others items)
      (items.all fun b => others.any fun a => same a b) := by
  simpa using elementsFound_map id heq

theorem entriesFound_map (f : γ → Value × Value) {key value : γ → γ → Bool} {others : List γ}
    (hkeys : ∀ a ∈ others, ∀ b ∈ xs, Reads h (eq (f a).1 (f b).1) (key a b))
    (hvalues : ∀ a ∈ others, ∀ b ∈ xs, Reads h (eq (f b).2 (f a).2) (value b a)) :
    Reads h (entriesFound eq (others.map f) (xs.map f)) (xs.all fun b =>
      (others.find? fun a => key a b).any fun a => value b a) := by
  induction xs with
  | nil => exact pure true
  | cons x rest ih =>
    have ih := ih (fun a ha b hb => hkeys a ha b (List.mem_cons_of_mem _ hb))
      fun a ha b hb => hvalues a ha b (List.mem_cons_of_mem _ hb)
    have hfind := position_map (fun a => (f a).1) fun a ha => hkeys a ha x List.mem_cons_self
    rw [List.all_cons, List.find?_eq_bind_findIdx?_getElem?]
    refine bind (by rwa [Machine.findKey, List.map_map]) ?_
    cases others.findIdx? fun a => key a x with
    | none => exact pure false
    | some slot =>
      rw [Option.bind_some]
      dsimp only
      rw [List.getElem?_map]
      cases hslot : others[slot]? with
      | none => exact pure false
      | some other =>
        rw [Option.any_some]
        refine bind (hvalues other (List.mem_of_getElem? hslot) x List.mem_cons_self) ?_
        cases value x other with
        | true => exact ih
        | false => exact pure false

theorem entriesFound {others : List (Value × Value)}
    (hkeys : ∀ a ∈ others, ∀ b ∈ entries, Reads h (eq a.1 b.1) (same a.1 b.1))
    (hvalues : ∀ a ∈ others, ∀ b ∈ entries, Reads h (eq b.2 a.2) (same b.2 a.2)) :
    Reads h (entriesFound eq others entries) (entries.all fun b =>
      (others.find? fun a => same a.1 b.1).any fun a => same b.2 a.2) := by
  simpa using entriesFound_map id hkeys hvalues

end Search

/-- Containers are compared by what they hold, unless they are known to be equal or differ in
size. -/
theorem contents {f g : Heap → Array α} {x : Array α → Array α → Exec Bool} {same : Bool}
    {P : Prop} [Decidable P] (hsame : same = true → P) (hsize : P → (f h).size = (g h).size)
    (hx : (f h).size = (g h).size → Reads h (x (f h) (g h)) (decide P)) :
    Reads h (if same then return true else do
      let l ← Exec.look f
      let r ← Exec.look g
      if l.size = r.size then x l r else return false) (decide P) := by
  by_cases hs : same = true
  · rw [if_pos hs, decide_eq_true (hsame hs)]
    exact pure true
  · rw [if_neg hs]
    refine bind (look f) (bind (look g) ?_)
    by_cases hlength : (f h).size = (g h).size
    · rw [if_pos hlength]
      exact hx hlength
    · rw [if_neg hlength, decide_eq_false fun hP => hlength (hsize hP)]
      exact pure false

section Hashes

variable {hash : Value → Exec Int64} {g : Value → Int64}

theorem hashAll {items : List Value} (hhash : ∀ v ∈ items, Reads h (hash v) (g v)) :
    Reads h (hashAll hash items) (items.map g) := by
  induction items with
  | nil => exact pure []
  | cons v rest ih =>
    obtain ⟨hfirst, hrest⟩ := List.forall_mem_cons.mp hhash
    exact bind hfirst (bind (ih hrest) (pure _))

theorem hashEntries {entries : List (Value × Value)}
    (hhash : ∀ e ∈ entries, Reads h (hash e.1) (g e.1) ∧ Reads h (hash e.2) (g e.2)) :
    Reads h (hashEntries hash entries) (entries.map fun e => g e.1 * 31 + g e.2) := by
  induction entries with
  | nil => exact pure []
  | cons e rest ih =>
    obtain ⟨⟨hkey, hvalue⟩, hrest⟩ := List.forall_mem_cons.mp hhash
    exact bind hkey (bind hvalue (bind (ih hrest) (pure _)))

end Hashes

end Reads

/-! ## Computations that agree -/

/-- Computations that give the same answer on some storage, all of them and in any frames, and
change nothing. -/
def Decides {ι α : Type} (h : Heap) (act : ι → Exec α) : Prop :=
  ∃ a, ∀ i, Reads h (act i) a

namespace Decides

variable {ι κ α β : Type} {h : Heap}

theorem pure (a : α) : Decides h fun _ : ι => (pure a : Exec α) :=
  ⟨a, fun _ => .pure a⟩

variable {x : ι → Exec α} {f : ι → α → Exec β}

theorem bind (hx : Decides h x) (hf : ∀ a, Decides h fun i => f i a) :
    Decides h fun i => x i >>= f i := by
  obtain ⟨a, ha⟩ := hx
  obtain ⟨b, hb⟩ := hf a
  exact ⟨b, fun i => (ha i).bind (hb i)⟩

theorem look_bind {g : Heap → α} (hf : Decides h fun i => f i (g h)) :
    Decides h fun i => Exec.look g >>= f i := by
  obtain ⟨b, hb⟩ := hf
  exact ⟨b, fun i => (Reads.look g).bind (hb i)⟩

/-- Some of the computations decide as all of them do. -/
theorem reindex {y : κ → Exec α} (hx : Decides h x) (g : κ → ι) (hy : ∀ k, y k = x (g k)) :
    Decides h y := by
  obtain ⟨a, ha⟩ := hx
  exact ⟨a, fun k => hy k ▸ ha (g k)⟩

/-- The answers to several questions, where there are any. -/
theorem exists_answers {Q : Type} [Inhabited α] (ask : ι → Q → Exec α) :
    ∃ answer : Q → α, ∀ q, (Decides h fun i => ask i q) → ∀ i, Reads h (ask i q) (answer q) := by
  have hanswer (q : Q) : ∃ a, (Decides h fun i => ask i q) → ∀ i, Reads h (ask i q) a := by
    by_cases hq : Decides h fun i => ask i q
    · obtain ⟨a, ha⟩ := hq
      exact ⟨a, fun _ => ha⟩
    · exact ⟨default, fun h => absurd h hq⟩
  exact Classical.axiomOfChoice hanswer

/-! ### Searching and comparing containers -/

section Search

variable {eq : ι → Value → Value → Exec Bool}

theorem exists_same (eq : ι → Value → Value → Exec Bool) :
    ∃ same : Value → Value → Bool, ∀ a b, (Decides h fun i => eq i a b) →
      ∀ i, Reads h (eq i a b) (same a b) := by
  obtain ⟨same, hsame⟩ := exists_answers (h := h) fun i (q : Value × Value) => eq i q.1 q.2
  exact ⟨fun a b => same (a, b), fun a b => hsame (a, b)⟩

theorem position {value : Value} {items : List Value}
    (heq : ∀ v ∈ items, Decides h fun i => eq i v value) :
    Decides h fun i => position (eq i) items value := by
  obtain ⟨same, hsame⟩ := exists_same (h := h) eq
  exact ⟨_, fun i => .position fun v hv => hsame v value (heq v hv) i⟩

theorem itemsEqual {as bs : List Value}
    (heq : ∀ a ∈ as, ∀ b ∈ bs, Decides h fun i => eq i a b) :
    Decides h fun i => itemsEqual (eq i) as bs := by
  obtain ⟨same, hsame⟩ := exists_same (h := h) eq
  exact ⟨_, fun i => .itemsEqual fun a ha b hb => hsame a b (heq a ha b hb) i⟩

theorem elementsFound {others items : List Value}
    (heq : ∀ a ∈ others, ∀ b ∈ items, Decides h fun i => eq i a b) :
    Decides h fun i => elementsFound (eq i) others items := by
  obtain ⟨same, hsame⟩ := exists_same (h := h) eq
  exact ⟨_, fun i => .elementsFound fun a ha b hb => hsame a b (heq a ha b hb) i⟩

theorem entriesFound {others entries : List (Value × Value)}
    (hkeys : ∀ a ∈ others, ∀ b ∈ entries, Decides h fun i => eq i a.1 b.1)
    (hvalues : ∀ a ∈ others, ∀ b ∈ entries, Decides h fun i => eq i b.2 a.2) :
    Decides h fun i => entriesFound (eq i) others entries := by
  obtain ⟨same, hsame⟩ := exists_same (h := h) eq
  exact ⟨_, fun i => .entriesFound (fun a ha b hb => hsame _ _ (hkeys a ha b hb) i)
    fun a ha b hb => hsame _ _ (hvalues a ha b hb) i⟩

/-- Containers are compared by what they hold, unless they are the same one or differ in size. -/
theorem contents {f g : Heap → Array α} {x : ι → Array α → Array α → Exec Bool} {P : Prop}
    [Decidable P] (hx : Decides h fun i => x i (f h) (g h)) :
    Decides h fun i => (if P then return true else do
      let l ← Exec.look f
      let r ← Exec.look g
      if l.size = r.size then x i l r else return false) := by
  by_cases hP : P
  · simp only [if_pos hP]
    exact pure true
  · simp only [if_neg hP]
    refine look_bind (look_bind ?_)
    by_cases hsize : (f h).size = (g h).size
    · simpa only [if_pos hsize] using hx
    · simpa only [if_neg hsize] using pure false

end Search

/-! ### Hashing containers -/

section Hashes

variable {hash : ι → Value → Exec Int64}

theorem hashAll {items : List Value} (hhash : ∀ v ∈ items, Decides h fun i => hash i v) :
    Decides h fun i => hashAll (hash i) items := by
  obtain ⟨g, hg⟩ := exists_answers (h := h) hash
  exact ⟨_, fun i => .hashAll fun v hv => hg v (hhash v hv) i⟩

theorem hashEntries {entries : List (Value × Value)}
    (hhash : ∀ e ∈ entries, (Decides h fun i => hash i e.1) ∧ Decides h fun i => hash i e.2) :
    Decides h fun i => hashEntries (hash i) entries := by
  obtain ⟨g, hg⟩ := exists_answers (h := h) hash
  exact ⟨_, fun i => .hashEntries fun e he =>
    ⟨hg e.1 (hhash e he).1 i, hg e.2 (hhash e he).2 i⟩⟩

end Hashes

end Decides

end Scribe.Machine
