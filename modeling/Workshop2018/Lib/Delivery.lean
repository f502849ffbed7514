/-
# Responses in the order they came

`n` requests, at the positions `0 … n - 1`, are answered in any order, each
once, each with a value or without one. A loader that appends a value when it
comes ends with the values in the order of the answers; a loader that waits
for each answer before it sends the next request ends with them in the order
of the positions. The two arrays are permutations of each other
(`Delivery.array_perm`), so the order of the answers changes the order of the
array and nothing else (`Delivery.array_perm_array`), and they are equal when
the values come in the order of their positions (`Delivery.array_eq_sequential`).

Key definitions: `Delivery`, `Delivery.array`, `sequential`.
-/
import Mathlib

namespace Concurrent

variable {α : Type*} {n : ℕ}

/-- The answers to `n` requests, in the order they came: every position is
answered once. -/
structure Delivery (n : ℕ) (α : Type*) where
  entries : List (ℕ × Option α)
  perm : (entries.map Prod.fst).Perm (List.range n)

/-- What the sequential loader ends with: the values of the positions that
have one, in the order of the positions. -/
def sequential (o : ℕ → Option α) (n : ℕ) : List α := (List.range n).filterMap o

namespace Delivery

/-- The values, in the order they came. -/
def array (d : Delivery n α) : List α := d.entries.filterMap Prod.snd

/-- The positions that brought a value, in the order they were answered. -/
def successes (d : Delivery n α) : List ℕ := (d.entries.filter (·.2.isSome)).map Prod.fst

/-- Position `k` was answered with `o k`. -/
def Agrees (d : Delivery n α) (o : ℕ → Option α) : Prop := ∀ e ∈ d.entries, e.2 = o e.1

variable {d : Delivery n α} {o : ℕ → Option α}

theorem array_eq (h : d.Agrees o) : d.array = (d.entries.map Prod.fst).filterMap o := by
  rw [array, List.filterMap_map]
  exact List.filterMap_congr fun e he => h e he

theorem array_perm (h : d.Agrees o) : d.array.Perm (sequential o n) := by
  rw [array_eq h]
  exact d.perm.filterMap o

/-- Two orders of the same answers give permutations of one array. -/
theorem array_perm_array {d' : Delivery n α} (h : d.Agrees o) (h' : d'.Agrees o) :
    d.array.Perm d'.array :=
  (array_perm h).trans (array_perm h').symm

/-- If each answer is `g` of something that `P` says of its position, some
choice of these for the positions is what the delivery agrees with. -/
theorem exists_agrees {ρ : Type*} [Nonempty ρ] {P : ℕ → ρ → Prop} {g : ρ → Option α}
    (h : ∀ e ∈ d.entries, ∃ a, P e.1 a ∧ e.2 = g a) :
    ∃ o : ℕ → ρ, (∀ k < n, P k (o k)) ∧ d.Agrees fun k => g (o k) := by
  have hmem : ∀ e ∈ d.entries, e.1 < n := fun e he =>
    List.mem_range.mp (d.perm.mem_iff.mp (List.mem_map_of_mem he))
  have hex : ∀ k, ∃ a, k < n → P k a ∧ (k, g a) ∈ d.entries := by
    intro k
    by_cases hk : k < n
    · obtain ⟨e, he, rfl⟩ := List.mem_map.mp (d.perm.mem_iff.mpr (List.mem_range.mpr hk))
      obtain ⟨a, ha, heq⟩ := h e he
      exact ⟨a, fun _ => ⟨ha, heq ▸ he⟩⟩
    · exact ⟨Classical.arbitrary ρ, fun hlt => absurd hlt hk⟩
  choose o ho using hex
  refine ⟨o, fun k hk => (ho k hk).1, fun e he => ?_⟩
  have hnodup : (d.entries.map Prod.fst).Nodup := d.perm.nodup_iff.mpr List.nodup_range
  have heq := List.inj_on_of_nodup_map hnodup he (ho e.1 (hmem e he)).2 rfl
  exact congrArg Prod.snd heq

theorem successes_eq (h : d.Agrees o) :
    d.successes = (d.entries.map Prod.fst).filter fun k => (o k).isSome := by
  rw [successes, List.filter_map]
  congr 1
  refine List.filter_congr fun e he => ?_
  simp [h e he]

/-- The array reads the positions that brought a value only. -/
theorem filterMap_filter_isSome (l : List ℕ) :
    (l.filter fun k => (o k).isSome).filterMap o = l.filterMap o := by
  rw [List.filterMap_filter]
  refine List.filterMap_congr fun k _ => ?_
  cases o k <;> rfl

/-- Values that come in the order of their positions give the sequential
loader's array. -/
theorem array_eq_sequential (h : d.Agrees o) (hs : d.successes.Pairwise (· < ·)) :
    d.array = sequential o n := by
  have hperm : d.successes.Perm ((List.range n).filter fun k => (o k).isSome) := by
    rw [successes_eq h]
    exact d.perm.filter _
  have hsort : ((List.range n).filter fun k => (o k).isSome).Pairwise (· < ·) :=
    List.pairwise_lt_range.filter _
  have heq : d.successes = (List.range n).filter fun k => (o k).isSome :=
    hperm.eq_of_pairwise (fun a b _ _ hab hba => absurd hab (by omega)) hs hsort
  rw [array_eq h, sequential, ← filterMap_filter_isSome (d.entries.map Prod.fst),
    ← successes_eq h, heq, filterMap_filter_isSome]

end Delivery

end Concurrent
