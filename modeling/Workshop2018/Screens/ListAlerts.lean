/-
# The alerts of the list

A reload whose ids do not come queues a block on the main queue that calls
`present` with an alert of the error. So it has been called with one, or the
block is waiting, for each response to an ids request that was a failure or no
list of `Int`, and for nothing else (`alerts_presented`): the failures of item
requests are not shown.

Key definitions: `waiting`, `alertFor`.
Key theorems: `Call.step_alerts`, `alerts_presented`.
-/
import Workshop2018.Screens.Quiescence

namespace Workshop2018
namespace ListViewController

open Concurrent

variable {F : Foundation} {es : List (Event UIEvent CallEvent)} {s : State} {c c' : Call}
  {e : CallEvent} {x : Effect}

/-- The alerts that failure blocks on the main queue will present. -/
def waiting (F : Foundation) (s : State) : List Alert :=
  s.calls.flatMap fun c => c.alerts.map (alert F)

/-- The alert for a response to an ids request that has an error. -/
def alertFor (F : Foundation) : CallEvent → Option Alert
  | .idsResponse result => (Network.idsError result).map (alert F)
  | _ => none

@[simp] theorem complete_presented (r : ℕ) (b : Completion) (g : Controller) :
    (complete r b g).presented = g.presented := by
  cases b <;> rfl

@[simp] theorem superViewWillAppear_presented (g : Controller) :
    (superViewWillAppear g).presented = g.presented := by
  unfold superViewWillAppear
  split <;> rfl

/-- A user's event presents no alert. -/
theorem ui_presented {n : ℕ} {g g' : Controller} {u : UIEvent} {new : List Call}
    (h : (machine F).ui n g u = some (g', new)) : g'.presented = g.presented := by
  cases u with
  | viewWillAppear =>
    obtain ⟨rfl, -⟩ := Prod.mk.inj ((viewWillAppear_eq g).symm.trans (Option.some.inj h))
    exact superViewWillAppear_presented g
  | pullToRefresh =>
    cases h
    rfl

/-- A step of a reload takes in an error, has the controller present one it
had taken in, or does neither. -/
theorem Call.step_alerts (h : c.step F e = some (c', x)) (r : ℕ) (g : Controller) :
    ((apply F r x g).presented ++ c'.alerts.map (alert F)).Perm
      (g.presented ++ c.alerts.map (alert F) ++ (alertFor F e).toList) := by
  -- the steps that leave the alerts alone, and take in no error
  have hkeep : ∀ {g' : Controller}, alertFor F e = none → c'.alerts = c.alerts → g'.presented = g.presented →
      (g'.presented ++ c'.alerts.map (alert F)).Perm
        (g.presented ++ c.alerts.map (alert F) ++ (alertFor F e).toList) := by
    intro g' hnone hal hpres
    rw [hnone, hal, hpres, Option.toList_none, List.append_nil]
  by_cases he : ∃ result, e = .idsResponse result
  · obtain ⟨result, rfl⟩ := he
    have hstep : c.step F (.idsResponse result) = if c.stage = .asking then
        some (Network.askstoriesItemsIds c.success c.failure result, .none) else none := rfl
    by_cases hst : c.stage = .asking
    · rw [hstep, if_pos hst] at h
      obtain ⟨heq, rfl⟩ := Prod.mk.inj (Option.some.inj h)
      rcases Network.askstoriesItemsIds_of_error c.success c.failure result with
        ⟨ids, hnone, hrun⟩ | ⟨error, herror, hrun⟩
      · rw [hrun] at heq
        subst heq
        exact hkeep (by simp [alertFor, hnone]) rfl rfl
      · rw [hrun] at heq
        subst heq
        simp [apply, alertFor, Call.failure, herror]
    · rw [hstep, if_neg hst] at h
      cases h
  · cases Call.step_moves h with
    | background _ => exact hkeep rfl rfl rfl
    | idsSuccess result _ _ _ => exact absurd ⟨result, rfl⟩ he
    | idsFailure result _ _ _ => exact absurd ⟨result, rfl⟩ he
    | itemResponse k result _ => exact hkeep rfl rfl rfl
    | notified b fetch _ => exact hkeep rfl rfl (complete_presented r b _)
    | failed error alerts ha =>
      -- the alert presented is the first that waited
      simp [apply, alertFor, ha]

/-- **One alert for each failed reload.** The alerts presented and those
waiting are those of the responses to ids requests that had an error, each as
often as it came. -/
theorem alerts_presented (h : Runs F es s) :
    (s.ctrl.presented ++ waiting F s).Perm (takenIn (alertFor F) es) := by
  refine Machine.handed_over (G := fun g : Controller => g.presented)
    (W := fun c : Call => c.alerts.map (alert F)) ?_ ?_ rfl h
  · intro n g u g' new hu
    refine ⟨ui_presented hu, fun c hc => ?_⟩
    rcases (ui_eq hu).1 with rfl | ⟨b, rfl⟩
    · cases hc
    · rw [List.mem_singleton.mp hc]
      rfl
  · intro g r c e c' x hs
    exact Call.step_alerts hs r g

/-- No block is waiting when nothing is left of any reload. -/
theorem waiting_of_quiet (hq : AllQuiet s) : waiting F s = [] := by
  refine List.flatMap_eq_nil_iff.mpr fun c hc => ?_
  obtain ⟨-, -, -, -, hal⟩ := hq c hc
  rw [hal, List.map_nil]

end ListViewController
end Workshop2018
