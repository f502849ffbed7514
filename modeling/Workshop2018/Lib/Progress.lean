/-
# Runs that come to rest

If each step on some kind of events lowers a rank, in an order without infinite
descent, then those events alone do not go on for ever (`Lowers.no_infinite_run`),
and from any state some run of them ends where none of them is enabled
(`Lowers.exists_rest`).

Of a controller with calls: between two events of the user only calls move. If
each step of a call lowers its rank, and ranks add up, then calls left to
themselves come to rest.

Key definitions: `Lowers`, `Machine.Ranked`, `Machine.CallStep`, `Machine.AtRest`, `CallsOnly`.
Key theorems: `Lowers.no_infinite_run`, `Lowers.exists_rest`, `Machine.no_infinite_run`,
`Machine.exists_rest`.
-/
import Workshop2018.Lib.Pool

namespace Concurrent

section Lowers

variable {σ ε α : Type*} [Preorder α] {step : σ → ε → Option σ} {C : ε → Prop} {rank : σ → α}

/-- Each step on an event of `C` lowers the rank. -/
def Lowers (step : σ → ε → Option σ) (C : ε → Prop) (rank : σ → α) : Prop :=
  ∀ s e t, C e → step s e = some t → rank t < rank s

variable [WellFoundedLT α]

theorem Lowers.no_infinite_run (h : Lowers step C rank) (f : ℕ → σ) :
    ∃ n, ∀ e, C e → step (f n) e ≠ some (f (n + 1)) := by
  obtain ⟨n, hn⟩ := WellFounded.not_rel_apply_succ (r := ((· < ·) : α → α → Prop))
    fun n => rank (f n)
  exact ⟨n, fun e he hstep => hn (h _ e _ he hstep)⟩

theorem Lowers.exists_rest (h : Lowers step C rank) (s : σ) :
    ∃ es t, (∀ e ∈ es, C e) ∧ run step s es = some t ∧ ∀ e, C e → step t e = none := by
  induction hs : rank s using WellFoundedLT.induction generalizing s with
  | ind a ih =>
    by_cases hrest : ∀ e, C e → step s e = none
    · exact ⟨[], s, nofun, rfl, hrest⟩
    · push Not at hrest
      obtain ⟨e, he, hne⟩ := hrest
      obtain ⟨t, ht⟩ := Option.ne_none_iff_exists'.mp hne
      obtain ⟨es, u, hes, hrun, hrest⟩ := ih _ (hs ▸ h s e t he ht) t rfl
      refine ⟨e :: es, u, ?_, by simp [run, ht, hrun], hrest⟩
      rintro e' (_ | ⟨_, he'⟩)
      · exact he
      · exact hes e' he'

end Lowers

variable {γ κ υ η φ : Type*}

/-- The event is not the user's. -/
def IsCall (ev : Event υ η) : Prop := ∃ r e, ev = .call r e

/-- None of the events is the user's. -/
def CallsOnly (es : List (Event υ η)) : Prop := ∀ ev ∈ es, IsCall ev

namespace Machine

variable {m : Machine γ κ υ η φ} {p q : Pool γ κ}

/-- Some call takes a step. -/
def CallStep (m : Machine γ κ υ η φ) (p q : Pool γ κ) : Prop := ∃ r e, m.step p (.call r e) = some q

/-- No call can take a step. -/
def AtRest (m : Machine γ κ υ η φ) (p : Pool γ κ) : Prop := ∀ r e, m.step p (.call r e) = none

/-- The calls are at rest when none of them can go on. -/
theorem atRest_iff : m.AtRest p ↔ ∀ c ∈ p.calls, ∀ e, m.call c e = none := by
  constructor
  · intro hrest c hc e
    obtain ⟨r, hr⟩ := List.mem_iff_getElem?.mp hc
    rcases hx : m.call c e with _ | ⟨c', x⟩
    · rfl
    · have hstep := step_call.mpr ⟨c, c', x, hr, hx, rfl⟩
      rw [hrest r e] at hstep
      cases hstep
  · intro hcalls r e
    rcases hstep : m.step p (.call r e) with _ | q
    · rfl
    · obtain ⟨c, c', x, hc, hx, -⟩ := step_call.mp hstep
      rw [hcalls c (List.mem_of_getElem? hc) e] at hx
      cases hx

section Ranked

variable {α : Type*} [AddCommMonoid α] [PartialOrder α] {rank : κ → α}

/-- Each step of a call lowers its rank. -/
def Ranked (m : Machine γ κ υ η φ) (rank : κ → α) : Prop :=
  ∀ c e c' x, m.call c e = some (c', x) → rank c' < rank c

/-- The ranks of the calls, added up. -/
def total (rank : κ → α) (p : Pool γ κ) : α := (p.calls.map rank).sum

variable [IsOrderedCancelAddMonoid α]

theorem sum_set_lt {l : List κ} {r : ℕ} {c c' : κ} (hc : l[r]? = some c) (h : rank c' < rank c) :
    ((l.set r c').map rank).sum < (l.map rank).sum := by
  obtain ⟨hlt, rfl⟩ := List.getElem?_eq_some_iff.mp hc
  have hsplit : l = l.take r ++ l[r] :: l.drop (r + 1) := by
    rw [← List.drop_eq_getElem_cons hlt, List.take_append_drop]
  have hset : l.set r c' = l.take r ++ c' :: l.drop (r + 1) := by
    rw [List.set_eq_take_append_cons_drop, if_pos hlt]
  have hsum : ∀ d, ((l.take r ++ d :: l.drop (r + 1)).map rank).sum =
      ((l.take r).map rank).sum + (rank d + ((l.drop (r + 1)).map rank).sum) := by
    intro d
    rw [List.map_append, List.sum_append, List.map_cons, List.sum_cons]
  calc ((l.set r c').map rank).sum
      = ((l.take r).map rank).sum + (rank c' + ((l.drop (r + 1)).map rank).sum) := by
        rw [hset, hsum]
    _ < ((l.take r).map rank).sum + (rank l[r] + ((l.drop (r + 1)).map rank).sum) :=
        add_lt_add_right (add_lt_add_left h _) _
    _ = (l.map rank).sum := by rw [← hsum, ← hsplit]

theorem Ranked.total_lt (h : m.Ranked rank) (hstep : m.CallStep p q) : total rank q < total rank p := by
  obtain ⟨r, e, hq⟩ := hstep
  obtain ⟨c, c', x, hc, hx, rfl⟩ := step_call.mp hq
  exact sum_set_lt hc (h c e c' x hx)

theorem Ranked.lowers (h : m.Ranked rank) : Lowers m.step IsCall (total rank) := by
  rintro p ev q ⟨r, e, rfl⟩ hq
  exact h.total_lt ⟨r, e, hq⟩

variable [WellFoundedLT α]

/-- Calls do not move for ever without the user. -/
theorem no_infinite_run (h : m.Ranked rank) (f : ℕ → Pool γ κ) :
    ∃ n, ¬ m.CallStep (f n) (f (n + 1)) := by
  obtain ⟨n, hn⟩ := h.lowers.no_infinite_run f
  refine ⟨n, ?_⟩
  rintro ⟨r, e, hstep⟩
  exact hn _ ⟨r, e, rfl⟩ hstep

/-- From any state the calls can come to rest. -/
theorem exists_rest (h : m.Ranked rank) (p : Pool γ κ) :
    ∃ es q, CallsOnly es ∧ run m.step p es = some q ∧ m.AtRest q := by
  obtain ⟨es, q, hes, hrun, hrest⟩ := h.lowers.exists_rest p
  exact ⟨es, q, hes, hrun, fun r e => hrest _ ⟨r, e, rfl⟩⟩

end Ranked

end Machine

end Concurrent
