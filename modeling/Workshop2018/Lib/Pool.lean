/-
# A controller and the calls it has in flight

A controller handles the events of its user, and some of them start calls. A
call goes on by its own steps, in any interleaving with the other calls and
with the user's events; what a step of a call does to the controller is its
effect. A call is named by its index, the order in which the calls started.

A call moves by its own steps only, so what every new call satisfies and every
step of a call carries on holds of each call in every run, with the steps the
call has made (`calls_history`). A fact that links a call to what the
controller remembers of it needs to be shown for the effects of that call, and
for those of the others as a frame (`link_invariant`). What the calls take in and hand over to
the controller is then there or still with them (`handed_over`).

Key definitions: `Machine`, `Pool`, `Machine.step`, `entriesOf`, `takenIn`.
Key theorems: `Machine.calls_history`, `Machine.link_invariant`, `Machine.handed_over`.
-/
import Workshop2018.Lib.Runs

namespace Concurrent

/-- A controller (`γ`) with calls (`κ`): `ui n g u` is what the user's event
`u` does to the controller, if it is enabled, with the calls it starts, the
first of which gets index `n`; `call` is a step of one call with its effect
(`φ`); `apply r` is the effect of call `r` on the controller. -/
structure Machine (γ κ υ η φ : Type*) where
  ui : ℕ → γ → υ → Option (γ × List κ)
  call : κ → η → Option (κ × φ)
  apply : ℕ → φ → γ → γ

/-- The controller and the calls it has started, in the order it started them. -/
structure Pool (γ κ : Type*) where
  ctrl : γ
  calls : List κ := []
  deriving DecidableEq, Repr

/-- An event of the user, or of call `r`. -/
inductive Event (υ η : Type*)
  | ui (u : υ)
  | call (r : ℕ) (e : η)

variable {γ κ υ η φ : Type*}

/-- One step of the controller and its calls. -/
def Machine.step (m : Machine γ κ υ η φ) (p : Pool γ κ) : Event υ η → Option (Pool γ κ)
  | .ui u =>
    match m.ui p.calls.length p.ctrl u with
    | none => none
    | some (g, new) => some { ctrl := g, calls := p.calls ++ new }
  | .call r e =>
    match p.calls[r]? with
    | none => none
    | some c =>
      match m.call c e with
      | none => none
      | some (c', x) => some { ctrl := m.apply r x p.ctrl, calls := p.calls.set r c' }

/-- The steps of call `r` among the events, in order. -/
def eventsOf (r : ℕ) (es : List (Event υ η)) : List η :=
  es.filterMap fun
    | .ui _ => none
    | .call r' e => if r' = r then some e else none

theorem mem_eventsOf {r : ℕ} {e : η} {es : List (Event υ η)} : e ∈ eventsOf r es ↔ .call r e ∈ es := by
  simp only [eventsOf, List.mem_filterMap]
  constructor
  · rintro ⟨ev, hev, he⟩
    cases ev with
    | ui u => cases he
    | call r' e' =>
      simp only [Option.ite_none_right_eq_some, Option.some.injEq] at he
      obtain ⟨rfl, rfl⟩ := he
      exact hev
  · exact fun h => ⟨_, h, by simp⟩

theorem eventsOf_append (r : ℕ) (es fs : List (Event υ η)) :
    eventsOf r (es ++ fs) = eventsOf r es ++ eventsOf r fs := List.filterMap_append

/-- What the steps of calls among the events take in. -/
def takenIn {α : Type*} (V : η → Option α) (es : List (Event υ η)) : List α :=
  es.filterMap fun
    | .ui _ => none
    | .call _ e => V e

/-! ### What a controller notes of its calls -/

section Log

variable {α : Type*} {log : List (ℕ × α)} {r r' : ℕ} {a : α}

/-- The entries of call `r` in a log that names the call with each. -/
def entriesOf (r : ℕ) (log : List (ℕ × α)) : List α := (log.filter (·.1 = r)).map Prod.snd

@[simp] theorem entriesOf_append_self : entriesOf r (log ++ [(r, a)]) = entriesOf r log ++ [a] := by
  simp [entriesOf]

theorem entriesOf_append_ne (h : r' ≠ r) : entriesOf r' (log ++ [(r, a)]) = entriesOf r' log := by
  simp [entriesOf, h.symm]

theorem mem_entriesOf : a ∈ entriesOf r log ↔ (r, a) ∈ log := by simp [entriesOf]

theorem count_map_fst : (log.map Prod.fst).count r = (entriesOf r log).length := by
  rw [entriesOf, List.length_map, List.count_eq_countP, List.countP_map,
    List.countP_eq_length_filter]
  exact congrArg List.length (List.filter_congr fun p _ => rfl)

end Log

namespace Machine

variable {m : Machine γ κ υ η φ} {p q : Pool γ κ}

theorem step_ui {u : υ} : m.step p (.ui u) = some q ↔
    ∃ g new, m.ui p.calls.length p.ctrl u = some (g, new) ∧
      q = { ctrl := g, calls := p.calls ++ new } := by
  simp only [step]
  constructor
  · intro h
    split at h
    · simp at h
    · rename_i g new hu
      cases h
      exact ⟨g, new, hu, rfl⟩
  · rintro ⟨g, new, hu, rfl⟩
    simp [hu]

theorem step_call {r : ℕ} {e : η} : m.step p (.call r e) = some q ↔
    ∃ c c' x, p.calls[r]? = some c ∧ m.call c e = some (c', x) ∧
      q = { ctrl := m.apply r x p.ctrl, calls := p.calls.set r c' } := by
  simp only [step]
  constructor
  · intro h
    split at h
    · simp at h
    · rename_i c hc
      split at h
      · simp at h
      · rename_i c' x hx
        cases h
        exact ⟨c, c', x, hc, hx, rfl⟩
  · rintro ⟨c, c', x, hc, hx, rfl⟩
    simp [hc, hx]

/-- After a step of call `r`: call `r` is its new state, the others are as they were. -/
theorem getElem?_set_call {r : ℕ} {c c' : κ} (hc : p.calls[r]? = some c) (r' : ℕ) :
    (p.calls.set r c')[r']? = if r' = r then some c' else p.calls[r']? := by
  have hlt : r < p.calls.length := (List.getElem?_eq_some_iff.mp hc).1
  rw [List.getElem?_set]
  by_cases h : r = r'
  · subst h; simp [hlt]
  · simp [h, Ne.symm h]

/-- A call that is there after a step was there before, has just started, or
has made the step. -/
theorem call_cases {ev : Event υ η} (h : m.step p ev = some q) {r : ℕ} {c' : κ}
    (hc' : q.calls[r]? = some c') :
    p.calls[r]? = some c' ∨
    (∃ u g new, ev = .ui u ∧ m.ui p.calls.length p.ctrl u = some (g, new) ∧ c' ∈ new) ∨
    ∃ c e x, ev = .call r e ∧ p.calls[r]? = some c ∧ m.call c e = some (c', x) := by
  rcases ev with u | ⟨r', e⟩
  · obtain ⟨g, new, hu, rfl⟩ := step_ui.mp h
    by_cases hlt : r < p.calls.length
    · exact Or.inl ((List.getElem?_append_left hlt).symm.trans hc')
    · refine Or.inr (Or.inl ⟨u, g, new, rfl, hu, ?_⟩)
      have hget : new[r - p.calls.length]? = some c' :=
        (List.getElem?_append_right (not_lt.mp hlt)).symm.trans hc'
      exact List.mem_of_getElem? hget
  · obtain ⟨c, d, x, hc, hx, rfl⟩ := step_call.mp h
    have hget := (getElem?_set_call hc r).symm.trans hc'
    by_cases hr : r = r'
    · subst hr
      rw [if_pos rfl] at hget
      obtain rfl := Option.some.inj hget
      exact Or.inr (Or.inr ⟨c, e, x, rfl, hc, hx⟩)
    · rw [if_neg hr] at hget
      exact Or.inl hget

/-- Calls are not forgotten. -/
theorem calls_length_le {es : List (Event υ η)} (h : run m.step p es = some q) :
    p.calls.length ≤ q.calls.length := by
  refine run_invariant (I := fun q => p.calls.length ≤ q.calls.length) le_rfl ?_ h
  intro t e u hle hstep
  rcases e with u' | ⟨r, e⟩
  · obtain ⟨g, new, -, rfl⟩ := step_ui.mp hstep
    simp only [List.length_append]
    omega
  · obtain ⟨c, c', x, -, -, rfl⟩ := step_call.mp hstep
    simpa using hle

/-- **Calls are independent.** What relates a new call to no event, and what
each step of a call carries on, relates every call of a run to its own steps
in it. -/
theorem calls_history {g : γ} {H : List η → κ → Prop}
    (hnew : ∀ n g u g' new, m.ui n g u = some (g', new) → ∀ c ∈ new, H [] c)
    (hcall : ∀ l c e c' x, H l c → m.call c e = some (c', x) → H (l ++ [e]) c')
    {es : List (Event υ η)} (h : run m.step { ctrl := g } es = some q) {r : ℕ} {c : κ}
    (hc : q.calls[r]? = some c) : H (eventsOf r es) c := by
  have key : ∀ r, (q.calls[r]? = none → eventsOf r es = []) ∧
      ∀ c, q.calls[r]? = some c → H (eventsOf r es) c := by
    refine run_history (P := fun es q => ∀ r, (q.calls[r]? = none → eventsOf r es = []) ∧
      ∀ c, q.calls[r]? = some c → H (eventsOf r es) c) ?_ ?_ h
    · intro r
      exact ⟨fun _ => rfl, fun c hc => by simp at hc⟩
    · intro es p e q _ ih hq r
      rw [eventsOf_append]
      cases e with
      | ui u =>
        obtain ⟨g', new, hu, rfl⟩ := step_ui.mp hq
        rw [show eventsOf r [Event.ui u] = ([] : List η) from rfl, List.append_nil]
        refine ⟨fun hn => (ih r).1 ?_, fun c hc => ?_⟩
        · rw [List.getElem?_eq_none_iff, List.length_append] at hn
          exact List.getElem?_eq_none (by omega)
        · by_cases hlt : r < p.calls.length
          · rw [List.getElem?_append_left hlt] at hc
            exact (ih r).2 c hc
          · rw [List.getElem?_append_right (by omega)] at hc
            rw [(ih r).1 (List.getElem?_eq_none (by omega))]
            exact hnew _ _ _ _ _ hu c (List.mem_of_getElem? hc)
      | call r' e =>
        obtain ⟨d, d', x, hd, hx, rfl⟩ := step_call.mp hq
        show (((p.calls.set r' d')[r]? = none) → _) ∧ ∀ c, (p.calls.set r' d')[r]? = some c → _
        rw [getElem?_set_call hd]
        by_cases hr : r = r'
        · subst hr
          rw [if_pos rfl, show eventsOf r [(Event.call r e : Event υ η)] = [e] by simp [eventsOf]]
          refine ⟨nofun, fun c hc => ?_⟩
          cases hc
          exact hcall _ d e _ x ((ih r).2 d hd) hx
        · rw [if_neg hr, show eventsOf r [(Event.call r' e : Event υ η)] = [] by
            simp [eventsOf, Ne.symm hr], List.append_nil]
          exact ih r
  exact (key r).2 c hc

/-- A call that is there goes on by its own steps. -/
theorem call_goes_on {H : List η → κ → Prop}
    (hcall : ∀ l c e c' x, H l c → m.call c e = some (c', x) → H (l ++ [e]) c')
    {r : ℕ} {c : κ} (hc : p.calls[r]? = some c) (h0 : H [] c) {es : List (Event υ η)}
    (h : run m.step p es = some q) : ∃ c', q.calls[r]? = some c' ∧ H (eventsOf r es) c' := by
  refine run_history (P := fun es (q : Pool γ κ) => ∃ c', q.calls[r]? = some c' ∧
    H (eventsOf r es) c') ⟨c, hc, h0⟩ ?_ h
  rintro es q e q' - ⟨c', hc', hH⟩ hstep
  rw [eventsOf_append]
  rcases e with u | ⟨r', e⟩
  · obtain ⟨g, new, -, rfl⟩ := step_ui.mp hstep
    refine ⟨c', ?_, by simpa [eventsOf] using hH⟩
    exact List.getElem?_append_left (List.getElem?_eq_some_iff.mp hc').1 |>.trans hc'
  · obtain ⟨d, d', x, hd, hx, rfl⟩ := step_call.mp hstep
    show ∃ c', (q.calls.set r' d')[r]? = some c' ∧ _
    rw [getElem?_set_call hd]
    by_cases hr : r = r'
    · subst hr
      obtain rfl : d = c' := Option.some.inj (hd.symm.trans hc')
      exact ⟨d', if_pos rfl, by simpa [eventsOf] using hcall _ d e _ x hH hx⟩
    · exact ⟨c', by rw [if_neg hr, hc'], by simpa [eventsOf, Ne.symm hr] using hH⟩

/-- **What the controller remembers of a call.** `L g r o` links the
controller to call `r`, which is `none` until it starts. A user's event keeps
the links of the calls it does not start and makes those of the calls it
does; a step of call `r` keeps the link of `r`, and its effect those of the
others. -/
theorem link_invariant {L : γ → ℕ → Option κ → Prop}
    (hold : ∀ n g u g' new r o, m.ui n g u = some (g', new) →
      (r < n ∨ n + new.length ≤ r) → L g r o → L g' r o)
    (hnew : ∀ n g u g' new i c, m.ui n g u = some (g', new) → new[i]? = some c →
      L g (n + i) none → L g' (n + i) (some c))
    (hself : ∀ g r c e c' x, L g r (some c) → m.call c e = some (c', x) →
      L (m.apply r x g) r (some c'))
    (hother : ∀ g r x r' o, r' ≠ r → L g r' o → L (m.apply r x g) r' o)
    {es : List (Event υ η)} (h0 : ∀ r, L p.ctrl r p.calls[r]?) (h : run m.step p es = some q) :
    ∀ r, L q.ctrl r q.calls[r]? := by
  refine run_invariant (I := fun p => ∀ r, L p.ctrl r p.calls[r]?) h0 ?_ h
  intro p e q hp hq r'
  cases e with
  | ui u =>
    obtain ⟨g', new, hu, rfl⟩ := step_ui.mp hq
    by_cases hlt : r' < p.calls.length
    · rw [List.getElem?_append_left hlt]
      exact hold _ _ _ _ _ _ _ hu (Or.inl hlt) (hp r')
    · obtain ⟨i, rfl⟩ := Nat.exists_eq_add_of_le (not_lt.mp hlt)
      have hnone := hp (p.calls.length + i)
      rw [List.getElem?_eq_none (by omega)] at hnone
      rw [List.getElem?_append_right (by omega), Nat.add_sub_cancel_left]
      rcases hc : new[i]? with _ | c
      · have hlen := List.getElem?_eq_none_iff.mp hc
        exact hold _ _ _ _ _ _ _ hu (Or.inr (by omega)) hnone
      · exact hnew _ _ _ _ _ _ _ hu hc hnone
  | call r e =>
    obtain ⟨c, c', x, hc, hx, rfl⟩ := step_call.mp hq
    show L _ r' (p.calls.set r c')[r']?
    rw [getElem?_set_call hc]
    split
    · rename_i h; subst h
      exact hself _ _ c e _ x (hc ▸ hp _) hx
    · rename_i h; exact hother _ _ _ _ _ h (hp r')

open scoped List in
/-- **Nothing is lost between a call and its controller.** Where each step of
a call leaves what the controller had (`G`), what the call had (`W`) and what
the step took in (`V`) with the two of them, the controller and its calls have,
at any time, all that has been taken in, each as often as it was. -/
theorem handed_over {α : Type*} {G : γ → List α} {W : κ → List α} {V : η → Option α}
    (hui : ∀ n g u g' new, m.ui n g u = some (g', new) → G g' = G g ∧ ∀ c ∈ new, W c = [])
    (hcall : ∀ g r c e c' x, m.call c e = some (c', x) →
      (G (m.apply r x g) ++ W c').Perm (G g ++ W c ++ (V e).toList))
    {g : γ} (h0 : G g = []) {es : List (Event υ η)} (h : run m.step { ctrl := g } es = some q) :
    (G q.ctrl ++ q.calls.flatMap W).Perm (takenIn V es) := by
  refine run_history (P := fun es (q : Pool γ κ) =>
    (G q.ctrl ++ q.calls.flatMap W).Perm (takenIn V es)) (by simp [h0, takenIn]) ?_ h
  intro es p e q _ ih hstep
  have happ : takenIn V (es ++ [e]) = takenIn V es ++ takenIn V [e] := List.filterMap_append
  rw [happ]
  rcases e with u | ⟨r, e⟩
  · obtain ⟨g', new, hu, rfl⟩ := step_ui.mp hstep
    obtain ⟨hG, hW⟩ := hui _ _ _ _ _ hu
    have hnew : new.flatMap W = [] := List.flatMap_eq_nil_iff.mpr hW
    simpa [takenIn, hG, hnew] using ih
  · obtain ⟨c, c', x, hc, hx, rfl⟩ := step_call.mp hstep
    obtain ⟨hlt, rfl⟩ := List.getElem?_eq_some_iff.mp hc
    have hVe : takenIn V [(.call r e : Event υ η)] = (V e).toList := by
      cases hV : V e <;> simp [takenIn, hV]
    -- call `r` apart, the calls are as they were
    have hbefore : (W p.calls[r] ++ (p.calls.eraseIdx r).flatMap W).Perm (p.calls.flatMap W) :=
      (List.getElem_cons_eraseIdx_perm hlt).flatMap_right W
    have hafter : ((p.calls.set r c').flatMap W).Perm (W c' ++ (p.calls.eraseIdx r).flatMap W) :=
      (List.set_perm_cons_eraseIdx hlt c').flatMap_right W
    rw [hVe]
    calc G (m.apply r x p.ctrl) ++ (p.calls.set r c').flatMap W
      _ ~ G (m.apply r x p.ctrl) ++ (W c' ++ (p.calls.eraseIdx r).flatMap W) := hafter.append_left _
      _ ~ G p.ctrl ++ W p.calls[r] ++ (V e).toList ++ (p.calls.eraseIdx r).flatMap W := by
        rw [← List.append_assoc]
        exact (hcall _ _ _ _ _ _ hx).append_right _
      _ ~ G p.ctrl ++ (W p.calls[r] ++ (p.calls.eraseIdx r).flatMap W) ++ (V e).toList := by
        simp only [List.append_assoc]
        exact (List.perm_append_comm.append_left _).append_left _
      _ ~ G p.ctrl ++ p.calls.flatMap W ++ (V e).toList := (hbefore.append_left _).append_right _
      _ ~ takenIn V es ++ (V e).toList := ih.append_right _

end Machine

end Concurrent
