/-
# Runs of a labelled step function

A step function `step : σ → ε → Option σ` says where an event takes a state,
`none` where the event is not enabled there. A run is a list of events, each
enabled in turn. The rules below prove a fact of every run from what one step
keeps: of the state it ends in (`run_invariant`), of the state and the events
so far (`run_history`), of a run whose steps all meet a condition
(`run_invariant_along`), and of the state as the last event of some kind left it
(`run_iff_atLast`).

Key definitions: `run`, `Along`, `Always`, `AtLast`.
Key theorems: `run_snoc`, `run_history`, `run_invariant`, `run_invariant_along`, `run_iff_atLast`.
-/
import Mathlib

namespace Concurrent

variable {σ ε : Type*} (step : σ → ε → Option σ)

/-- The state the events lead to from `s`, if each is enabled in turn. -/
def run : σ → List ε → Option σ
  | s, [] => some s
  | s, e :: es => (step s e).bind fun t => run t es

theorem run_append : ∀ (s : σ) (es fs : List ε),
    run step s (es ++ fs) = (run step s es).bind fun t => run step t fs
  | _, [], _ => rfl
  | s, e :: es, fs => by
    simp only [List.cons_append, run]
    cases step s e with
    | none => rfl
    | some t => exact run_append t es fs

variable {step}

/-- A run splits at each of its events. -/
theorem run_append_iff {s u : σ} {es fs : List ε} :
    run step s (es ++ fs) = some u ↔ ∃ t, run step s es = some t ∧ run step t fs = some u := by
  rw [run_append, Option.bind_eq_some_iff]

/-- The last step of a run. -/
theorem run_snoc {s u : σ} {es : List ε} {e : ε} :
    run step s (es ++ [e]) = some u ↔ ∃ t, run step s es = some t ∧ step t e = some u := by
  simp [run_append_iff, run]

/-- A run up to one of its events, that event, and the rest of the run. -/
theorem run_split {s t u : σ} {pre post : List ε} {e : ε}
    (h : run step s (pre ++ e :: post) = some u) (ht : run step s pre = some t) :
    ∃ t', step t e = some t' ∧ run step s (pre ++ [e]) = some t' ∧ run step t' post = some u := by
  obtain ⟨v, hv, hu⟩ := run_append_iff.mp h
  obtain rfl : v = t := Option.some.inj (hv.symm.trans ht)
  obtain ⟨t', ht', hpost⟩ := Option.bind_eq_some_iff.mp hu
  exact ⟨t', ht', run_snoc.mpr ⟨v, ht, ht'⟩, hpost⟩

/-- Induction on a run, with its events so far. -/
theorem run_history {P : List ε → σ → Prop} {s : σ} (h0 : P [] s)
    (hstep : ∀ es t e u, run step s es = some t → P es t → step t e = some u → P (es ++ [e]) u) :
    ∀ {es t}, run step s es = some t → P es t := by
  intro es
  induction es using List.reverseRecOn with
  | nil =>
    intro t h
    cases h
    exact h0
  | append_singleton es e ih =>
    intro u h
    obtain ⟨t, ht, hu⟩ := run_snoc.mp h
    exact hstep es t e u ht (ih ht) hu

/-- What the start satisfies and each step keeps holds at the end of every run. -/
theorem run_invariant {I : σ → Prop} {s : σ} (h0 : I s)
    (hstep : ∀ t e u, I t → step t e = some u → I u) {es : List ε} {t : σ}
    (h : run step s es = some t) : I t :=
  run_history (P := fun _ t => I t) h0 (fun _ t e u _ ht hu => hstep t e u ht hu) h

variable (step)

/-- Every step of the run from `s` on `es` meets `C`, which reads the state
before the step and the event. -/
def Along (C : σ → ε → Prop) (s : σ) (es : List ε) : Prop :=
  ∀ pre e post t, es = pre ++ e :: post → run step s pre = some t → C t e

/-- Every state that the run from `s` on `es` passes satisfies `I`. -/
def Always (I : σ → Prop) (s : σ) (es : List ε) : Prop :=
  ∀ pre t, pre <+: es → run step s pre = some t → I t

variable {step}

theorem Along.of_prefix {C : σ → ε → Prop} {s : σ} {es fs : List ε} (h : Along step C s fs)
    (hp : es <+: fs) : Along step C s es := by
  obtain ⟨rest, rfl⟩ := hp
  intro pre e post t he ht
  exact h pre e (post ++ rest) t (by simp [he]) ht

theorem Along.last {C : σ → ε → Prop} {s t : σ} {es : List ε} {e : ε}
    (h : Along step C s (es ++ [e])) (ht : run step s es = some t) : C t e :=
  h es e [] t rfl ht

/-- A run meets a condition just where it did before its last step, and that step does. -/
theorem along_snoc {C : σ → ε → Prop} {s t : σ} {es : List ε} {e : ε} (ht : run step s es = some t) :
    Along step C s (es ++ [e]) ↔ Along step C s es ∧ C t e := by
  refine ⟨fun h => ⟨h.of_prefix (List.prefix_append _ _), h.last ht⟩, ?_⟩
  rintro ⟨h, he⟩ pre e' post u heq hu
  rcases List.eq_nil_or_concat post with rfl | ⟨post', e'', rfl⟩
  · obtain ⟨rfl, hlast⟩ := List.append_inj' heq rfl
    obtain rfl := List.singleton_inj.mp hlast
    obtain rfl := Option.some.inj (ht.symm.trans hu)
    exact he
  · rw [List.concat_eq_append, ← List.cons_append, ← List.append_assoc] at heq
    obtain ⟨rfl, -⟩ := List.append_inj' heq rfl
    exact h pre e' post' u rfl hu

theorem Along.always {C : σ → ε → Prop} {I : σ → Prop} {s : σ} {es : List ε}
    (hI : ∀ pre t, Along step C s pre → run step s pre = some t → I t) (h : Along step C s es) :
    Always step I s es :=
  fun pre t hp ht => hI pre t (h.of_prefix hp) ht

/-- A condition on the steps of a run, step by step. -/
theorem along_cons {C : σ → ε → Prop} {s : σ} {e : ε} {es : List ε} :
    Along step C s (e :: es) ↔ C s e ∧ ∀ t, step s e = some t → Along step C t es := by
  constructor
  · intro h
    refine ⟨h [] e es s rfl rfl, fun t ht pre e' post u he hu => ?_⟩
    exact h (e :: pre) e' post u (by simp [he]) (by simpa [run, ht] using hu)
  · rintro ⟨hs, ht⟩ pre e' post u he hu
    rcases pre with _ | ⟨p, pre⟩
    · cases he
      cases hu
      exact hs
    · simp only [List.cons_append, List.cons.injEq] at he
      obtain ⟨rfl, he⟩ := he
      obtain ⟨t, hst, htu⟩ := Option.bind_eq_some_iff.mp hu
      exact ht t hst pre e' post u he htu

/-- A run whose steps meet a condition, continued by events that meet it anywhere. -/
theorem Along.append {C : σ → ε → Prop} {fs : List ε} (hf : ∀ e ∈ fs, ∀ t, C t e) :
    ∀ {s : σ} {es : List ε}, Along step C s es → Along step C s (es ++ fs)
  | s, [], _ => fun pre e post t he _ => hf e (by simp [show fs = _ from he]) t
  | s, e :: es, h => by
    obtain ⟨hs, ht⟩ := along_cons.mp h
    exact along_cons.mpr ⟨hs, fun t hst => (ht t hst).append hf⟩

instance decidableAlong {C : σ → ε → Prop} [∀ s e, Decidable (C s e)] :
    ∀ (s : σ) (es : List ε), Decidable (Along step C s es)
  | _, [] => isTrue fun _ _ _ _ he => by simp at he
  | s, e :: es =>
    match h : step s e with
    | none => decidable_of_iff (C s e) (by simp [along_cons, h])
    | some t =>
      have := decidableAlong (C := C) t es
      decidable_of_iff (C s e ∧ Along step C t es) (by simp [along_cons, h])

/-- As `run_invariant`, for the runs whose steps all meet `C`. -/
theorem run_invariant_along {C : σ → ε → Prop} {I : σ → Prop} {s : σ} (h0 : I s)
    (hstep : ∀ es t e u, run step s es = some t → I t → C t e → step t e = some u → I u)
    {es : List ε} {t : σ} (hC : Along step C s es) (h : run step s es = some t) : I t :=
  run_history (P := fun es t => Along step C s es → I t) (fun _ => h0)
    (fun es t e u ht ih hu hC =>
      hstep es t e u ht (ih (hC.of_prefix (List.prefix_append _ _))) (hC.last ht) hu) h hC

/-! ### The last event of a kind -/

section AtLast

variable (step) (P : ε → Prop) (C : σ → ε → Prop)

/-- The run from `s` on `es` has an event of `P`, and the last one met `C`,
which reads the state before the step and the event. -/
def AtLast (s : σ) (es : List ε) : Prop :=
  ∃ pre e post t, es = pre ++ e :: post ∧ P e ∧ (∀ e' ∈ post, ¬ P e') ∧
    run step s pre = some t ∧ C t e

variable {step P C} {s t : σ} {es : List ε} {e : ε}

theorem atLast_snoc_of (ht : run step s es = some t) (he : P e) :
    AtLast step P C s (es ++ [e]) ↔ C t e := by
  constructor
  · rintro ⟨pre, e', post, u, heq, -, hpost, hu, hC⟩
    rcases List.eq_nil_or_concat post with rfl | ⟨post', e'', rfl⟩
    · obtain ⟨rfl, hlast⟩ := List.append_inj' heq rfl
      obtain rfl := List.singleton_inj.mp hlast
      obtain rfl := Option.some.inj (ht.symm.trans hu)
      exact hC
    · -- an event of `P` after the last of them
      rw [List.concat_eq_append, ← List.cons_append, ← List.append_assoc] at heq
      obtain ⟨-, hlast⟩ := List.append_inj' heq rfl
      obtain rfl := List.singleton_inj.mp hlast
      exact absurd he (hpost e (by simp))
  · intro hC
    exact ⟨es, e, [], t, rfl, he, by simp, ht, hC⟩

theorem atLast_snoc_not (he : ¬ P e) : AtLast step P C s (es ++ [e]) ↔ AtLast step P C s es := by
  constructor
  · rintro ⟨pre, e', post, u, heq, he', hpost, hu, hC⟩
    rcases List.eq_nil_or_concat post with rfl | ⟨post', e'', rfl⟩
    · obtain ⟨-, hlast⟩ := List.append_inj' heq rfl
      obtain rfl := List.singleton_inj.mp hlast
      exact absurd he' he
    · rw [List.concat_eq_append, ← List.cons_append, ← List.append_assoc] at heq
      obtain ⟨rfl, -⟩ := List.append_inj' heq rfl
      exact ⟨pre, e', post', u, rfl, he', fun d hd => hpost d (by simp [hd]), hu, hC⟩
  · rintro ⟨pre, e', post, u, rfl, he', hpost, hu, hC⟩
    refine ⟨pre, e', post ++ [e], u, by simp, he', fun d hd => ?_, hu, hC⟩
    rcases List.mem_append.mp hd with hmem | hlast
    · exact hpost d hmem
    · rwa [List.mem_singleton.mp hlast]

/-- What holds at first, is decided by each event of `P`, and is left as it is
by the others, holds unless the last event of `P` met `C`. -/
theorem run_iff_atLast {I : σ → Prop} (h0 : I s)
    (hset : ∀ es t e u, run step s es = some t → P e → step t e = some u → (I u ↔ ¬ C t e))
    (hkeep : ∀ es t e u, run step s es = some t → ¬ P e → step t e = some u → (I u ↔ I t))
    (h : run step s es = some t) : I t ↔ ¬ AtLast step P C s es := by
  refine run_history (P := fun es t => I t ↔ ¬ AtLast step P C s es) ?_ ?_ h
  · have hnone : ¬ AtLast step P C s [] := by
      rintro ⟨pre, e, post, -, heq, -⟩
      simp at heq
    exact iff_of_true h0 hnone
  · intro es t e u ht ih hu
    by_cases he : P e
    · rw [atLast_snoc_of ht he]
      exact hset es t e u ht he hu
    · rw [atLast_snoc_not he, hkeep es t e u ht he hu]
      exact ih

end AtLast

end Concurrent
