import Mathlib.Data.Finset.Card
import Mathlib.Data.List.Infix

/-!
# First representatives and last values

What sets and maps are to hold after some operations, said of the operations alone. Of values that
are compared by some `same`, the first of each class stays (`firsts`); of pairs of keys and values,
the last pair whose key is the same as a given one counts (`lastFor`).
-/

namespace Scribe.Machine

variable {α β : Type} {same same' : α → α → Bool}

/-- The values that no earlier value is the same as. -/
def firsts (same : α → α → Bool) (vs : List α) : List α :=
  (vs.zipIdx.filter fun x => (vs.take x.2).all fun u => !same u x.1).map (·.1)

/-- The value of the last pair whose key is the same as `key`. -/
def lastFor (same : α → α → Bool) (pairs : List (α × β)) (key : α) : Option β :=
  (pairs.reverse.find? fun e => same e.1 key).map (·.2)

/-- The classes of the values among each other. -/
def classes [DecidableEq α] (same : α → α → Bool) (vs : List α) : Finset (List α) :=
  (vs.map fun v => vs.filter (same v)).toFinset

/-! ## One more operation -/

theorem firsts_concat (same : α → α → Bool) (vs : List α) (v : α) :
    firsts same (vs ++ [v]) =
      firsts same vs ++ if vs.any (same · v) then [] else [v] := by
  unfold firsts
  rw [List.zipIdx_append, List.filter_append, List.map_append]
  congr 1
  · -- the values before an old one are the same as before
    refine congrArg _ (List.filter_congr fun x hx => ?_)
    have hlt := List.snd_lt_add_of_mem_zipIdx hx
    rw [List.take_append_of_le_length (by omega)]
  · by_cases hv : vs.any (same · v) = true <;> simp_all

theorem lastFor_concat (same : α → α → Bool) (pairs : List (α × β)) (k : α) (w : β) (key : α) :
    lastFor same (pairs ++ [(k, w)]) key =
      if same k key then some w else lastFor same pairs key := by
  unfold lastFor
  rw [List.reverse_concat, List.find?_cons]
  cases same k key <;> rfl

/-! ## Comparisons that agree -/

variable {vs : List α} {pairs : List (α × β)} {key : α}

theorem firsts_congr (h : ∀ u ∈ vs, ∀ v ∈ vs, same u v = same' u v) :
    firsts same vs = firsts same' vs := by
  unfold firsts
  refine congrArg _ (List.filter_congr fun x hx => ?_)
  rw [Bool.eq_iff_iff, List.all_eq_true, List.all_eq_true]
  refine forall₂_congr fun u hu => ?_
  rw [h u (List.mem_of_mem_take hu) x.1 (List.fst_mem_of_mem_zipIdx hx)]

theorem lastFor_congr (h : ∀ e ∈ pairs, same e.1 key = same' e.1 key) :
    lastFor same pairs key = lastFor same' pairs key := by
  induction pairs using List.reverseRecOn with
  | nil => rfl
  | append_singleton pairs e ih =>
    obtain ⟨hpairs, he⟩ := List.forall_mem_append.mp h
    rw [lastFor_concat, lastFor_concat, he e (List.mem_singleton.mpr rfl), ih hpairs]

theorem classes_congr [DecidableEq α] (h : ∀ u ∈ vs, ∀ v ∈ vs, same u v = same' u v) :
    classes same vs = classes same' vs := by
  unfold classes
  refine congrArg _ (List.map_congr_left fun v hv => List.filter_congr fun u hu => ?_)
  exact h v hv u hu

theorem lastFor_eq_none_iff :
    lastFor same pairs key = none ↔ ∀ e ∈ pairs, same e.1 key = false := by
  simp [lastFor]

/-! ## Comparisons of what values are -/

theorem mem_of_mem_firsts {v : α} (hv : v ∈ firsts same vs) : v ∈ vs := by
  obtain ⟨x, hx, rfl⟩ := List.mem_map.mp hv
  exact List.fst_mem_of_mem_zipIdx (List.mem_of_mem_filter hx)

theorem firsts_pairwise (same : α → α → Bool) (vs : List α) :
    (firsts same vs).Pairwise fun x y => same x y = false := by
  induction vs using List.reverseRecOn with
  | nil => exact .nil
  | append_singleton vs v ih =>
    rw [firsts_concat]
    by_cases hv : vs.any (same · v) = true
    · simpa [hv] using ih
    · rw [if_neg hv]
      refine List.pairwise_append.mpr ⟨ih, List.pairwise_singleton _ _, fun u hu w hw => ?_⟩
      obtain rfl := List.mem_singleton.mp hw
      simpa using fun heq => hv (List.any_eq_true.mpr ⟨u, mem_of_mem_firsts hu, heq⟩)

section Key

variable {γ : Type} [DecidableEq γ] {f : α → γ} (hsame : ∀ x y, same x y = decide (f x = f y))

include hsame

theorem any_firsts (vs : List α) (x : α) :
    (firsts same vs).any (same · x) = vs.any (same · x) := by
  induction vs using List.reverseRecOn with
  | nil => rfl
  | append_singleton vs v ih =>
    rw [firsts_concat, List.any_append, List.any_append, ih]
    by_cases hv : vs.any (same · v) = true
    · -- what is the same as `v` is the same as an earlier value
      rw [if_pos hv, List.any_nil, Bool.or_false, eq_comm, Bool.or_eq_left_iff_imp]
      obtain ⟨u, hu, huv⟩ := List.any_eq_true.mp hv
      intro hx
      refine List.any_eq_true.mpr ⟨u, hu, ?_⟩
      rw [hsame, decide_eq_true_iff] at huv ⊢
      rw [huv]
      simpa [hsame] using hx
    · rw [if_neg hv]

theorem lastFor_eq_of_same {pairs : List (α × β)} {k key : α} (hk : same k key = true) :
    lastFor same pairs k = lastFor same pairs key := by
  rw [hsame, decide_eq_true_iff] at hk
  simp only [lastFor, hsame, hk]

theorem length_firsts [DecidableEq α] (vs : List α) :
    (firsts same vs).length = (classes same vs).card := by
  have hself {v : α} (hv : v ∈ vs) : v ∈ vs.filter (same v) := by simp [hv, hsame]
  have hclasses : classes same vs = ((firsts same vs).map fun v => vs.filter (same v)).toFinset := by
    ext members
    simp only [classes, List.mem_toFinset, List.mem_map]
    constructor
    · rintro ⟨v, hv, rfl⟩
      have hany : (firsts same vs).any (same · v) = true := by
        rw [any_firsts hsame]
        exact List.any_eq_true.mpr ⟨v, hv, by simp [hsame]⟩
      obtain ⟨u, hu, huv⟩ := List.any_eq_true.mp hany
      rw [hsame, decide_eq_true_iff] at huv
      exact ⟨u, hu, List.filter_congr fun w _ => by rw [hsame, hsame, huv]⟩
    · rintro ⟨v, hv, rfl⟩
      exact ⟨v, mem_of_mem_firsts hv, rfl⟩
  have hnodup : ((firsts same vs).map fun v => vs.filter (same v)).Nodup := by
    refine List.pairwise_map.mpr ((firsts_pairwise same vs).imp_of_mem fun {u v} _ hv hne heq => ?_)
    have hmem := hself (mem_of_mem_firsts hv)
    rw [← heq, List.mem_filter, hne] at hmem
    exact Bool.false_ne_true hmem.2
  rw [hclasses, List.toFinset_card_of_nodup hnodup, List.length_map]

end Key

end Scribe.Machine
