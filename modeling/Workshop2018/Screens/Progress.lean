/-
# Both screens settle

A reload or load that is not `Quiet` can go on, and each of its steps lowers
its rank. So while the user does nothing the steps of a screen come to an end,
and where they end nothing is left of any reload or load: each one started has
completed, and the screen is not loading (`ListViewController.settles`,
`DetailViewController.settles`). A load of `n` comments takes `3 n + 2` steps
(`DetailViewController.load_steps`).

Key definitions: `ListViewController.Call.rank`, `DetailViewController.Load.rank`.
Key theorems: `ListViewController.settles`, `DetailViewController.settles`.
-/
import Workshop2018.Lib.Progress
import Workshop2018.Screens.Quiescence

namespace Workshop2018

open Concurrent

namespace ListViewController

variable {F : Foundation} {es : List (Event UIEvent CallEvent)} {s s' : State} {c c' : Call}
  {e : CallEvent} {x : Effect}

/-- What is left of a reload: its stages before the ids, and then its
responses and blocks, the number of which the ids decide. -/
def Call.rank (c : Call) : ℕ ×ₗ ℕ :=
  toLex (match c.stage with
    | .dispatched => 2
    | .asking => 1
    | .fetching _ | .failing => 0, c.fetch.pending + c.alerts.length)

theorem Call.step_rank (hs : c.step F e = some (c', x)) : c'.rank < c.rank := by
  cases Call.step_moves hs with
  | background h => exact Prod.Lex.toLex_lt_toLex.mpr (Or.inl (by simp [h]))
  | idsSuccess result ids h hids =>
    exact Prod.Lex.toLex_lt_toLex.mpr (Or.inl (by simp [Call.success, h]))
  | idsFailure result error h hids =>
    exact Prod.Lex.toLex_lt_toLex.mpr (Or.inl (by simp [Call.failure, h]))
  | itemResponse k result hk =>
    have hlt := FanIn.pending_settle hk (Network.itemOf F result)
    exact Prod.Lex.toLex_lt_toLex.mpr (Or.inr ⟨rfl, by dsimp only; omega⟩)
  | notified b fetch hn =>
    have hlt := FanIn.pending_next hn
    exact Prod.Lex.toLex_lt_toLex.mpr (Or.inr ⟨rfl, by dsimp only; omega⟩)
  | failed error alerts ha =>
    exact Prod.Lex.toLex_lt_toLex.mpr (Or.inr ⟨rfl, by simp [ha]⟩)

theorem ranked (F : Foundation) : (machine F).Ranked Call.rank := fun _ _ _ _ hs => Call.step_rank hs

/-- A reload can go on unless nothing of it is left. -/
theorem Call.exists_step (hq : ¬ c.Quiet) : ∃ e, c.step F e ≠ none := by
  by_cases hd : c.stage = .dispatched
  · exact ⟨.background, by simp [Call.step, hd]⟩
  by_cases ha : c.stage = .asking
  · exact ⟨.idsResponse (Network.idsResult []), by simp [Call.step, ha]⟩
  by_cases hreq : c.fetch.requests = []
  swap
  · obtain ⟨k, hk⟩ := List.exists_mem_of_ne_nil _ hreq
    have hresp : Fetch.response F c.fetch k (.failure (.alamofire "")) =
        some (c.fetch.settle k none) := Fetch.response_eq_some.mpr ⟨hk, rfl⟩
    exact ⟨.itemResponse k (.failure (.alamofire "")), by simp [Call.step, hresp]⟩
  rcases hqueued : c.fetch.queued with _ | ⟨b, bs⟩
  · rcases hal : c.alerts with _ | ⟨error, alerts⟩
    · exact absurd ⟨hd, ha, hreq, hqueued, hal⟩ hq
    · exact ⟨.failed, by simp [Call.step, hal]⟩
  · have hnext := FanIn.next_eq_some.mpr ⟨bs, hqueued, rfl⟩
    exact ⟨.notified, by simp [Call.step, hnext]⟩

theorem Call.Quiet.step_eq_none (hq : c.Quiet) (e : CallEvent) : c.step F e = none := by
  obtain ⟨hd, ha, hreq, hqueued, hal⟩ := hq
  rcases hs : c.step F e with _ | ⟨c', x⟩
  · rfl
  · cases Call.step_moves hs with
    | background h => exact absurd h hd
    | idsSuccess result ids h hids => exact absurd h ha
    | idsFailure result error h hids => exact absurd h ha
    | itemResponse k result hk => rw [hreq] at hk; cases hk
    | notified b fetch hn =>
      obtain ⟨bs, hq, -⟩ := FanIn.next_eq_some.mp hn
      rw [hqueued] at hq
      simp at hq
    | failed error alerts h => rw [hal] at h; cases h

theorem atRest_iff : (machine F).AtRest s ↔ AllQuiet s := by
  rw [Machine.atRest_iff]
  refine forall₂_congr fun c _ => ⟨fun hrest => ?_, fun hq => hq.step_eq_none⟩
  by_contra hq
  obtain ⟨e, he⟩ := Call.exists_step hq
  exact he (hrest e)

/-- A list that has appeared stays so. -/
theorem appeared_of_run (h : run (machine F).step s es = some s') :
    s.ctrl.appeared = true → s'.ctrl.appeared = true := by
  intro happ
  refine run_invariant (I := fun s => s.ctrl.appeared = true) happ ?_ h
  intro t e u ht hstep
  have hw := step_writes hstep
  generalize u.ctrl = g at hw ⊢
  cases hw with
  | appear => rw [superViewWillAppear, if_pos ht]; exact ht
  | pull => exact ht
  | progress _ _ _ _ => exact ht
  | publish _ _ _ _ _ _ => rw [complete_appeared]; exact ht
  | present _ _ _ _ _ _ => rw [complete_appeared]; exact ht

/-- **The list settles.** While the user does nothing the reloads of a list do
not go on for ever, and can always go on to where nothing is left of any. There
each reload has completed once, and a list that had appeared, and was pulled
only since, is not loading: its table view shows a row for each item. -/
theorem settles (h : Runs F es s) :
    (∀ f : ℕ → State, f 0 = s → ∃ n, ¬ (machine F).CallStep (f n) (f (n + 1))) ∧
    (∃ es' u, CallsOnly es' ∧ run (machine F).step s es' = some u ∧ (machine F).AtRest u) ∧
    ∀ es' u, CallsOnly es' → run (machine F).step s es' = some u → (machine F).AtRest u →
      (∀ r < s.calls.length, u.ctrl.completed.count r = 1) ∧
      (Along (machine F).step PulledAfterAppearing { ctrl := {} } es → s.ctrl.appeared = true →
        u.ctrl.loadingItems = false ∧ u.ctrl.refreshing = false ∧
          ∃ t, u.ctrl.table = some t ∧ t.rows = List.replicate u.ctrl.items.length 1) := by
  refine ⟨fun f _ => Machine.no_infinite_run (ranked F) f, ?_, fun es' u hes hrun hrest => ?_⟩
  · obtain ⟨es', u, hes, hrun, hrest⟩ := Machine.exists_rest (ranked F) s
    exact ⟨es', u, hes, hrun, hrest⟩
  · have hq := atRest_iff.mp hrest
    have hu : Runs F (es ++ es') u := run_append_iff.mpr ⟨s, h, hrun⟩
    refine ⟨fun r hr => ?_, fun hC happ => ?_⟩
    · have hlt : r < u.calls.length := lt_of_lt_of_le hr (Machine.calls_length_le hrun)
      exact completed_of_quiet hu (List.getElem?_eq_getElem hlt) (hq _ (List.getElem_mem hlt))
    · refine loaded_of_quiet hu (hC.append fun ev hev t => ?_) (appeared_of_run hrun happ) hq
      obtain ⟨r, e, rfl⟩ := hes ev hev
      trivial

end ListViewController

namespace DetailViewController

variable {F : Foundation} {item : Item} {es : List (Event UIEvent LoadEvent)} {s s' : State}
  {r : ℕ} {c c' : Load} {e : LoadEvent} {x : Effect}

/-- The steps the block has left, and those its requests and its block of
`group.notify` will make. -/
def Thread.rank : Thread → ℕ
  | .loop ids => 3 * ids.length + 2
  | .request _ ids => 3 * ids.length + 4

/-- The steps a load has left. -/
def Load.rank (c : Load) : ℕ := c.thread.elim 0 Thread.rank + c.fetch.pending

theorem Load.step_rank (hs : c.step F e = some (c', x)) : c'.rank + 1 = c.rank := by
  cases Load.step_moves hs with
  | enter id ids ht =>
    simp only [Load.rank, ht, Option.elim, Thread.rank, List.length_cons, FanIn.pending_enter]
    omega
  | request id ids ht =>
    simp only [Load.rank, ht, Option.elim, Thread.rank, FanIn.pending_issue]
    omega
  | notify ht =>
    simp only [Load.rank, ht, Option.elim, Thread.rank, FanIn.pending_notify, List.length_nil]
    omega
  | itemResponse k result hk =>
    have hpending := FanIn.pending_settle hk (Network.itemOf F result)
    simp only [Load.rank]
    omega
  | notified b fetch hn =>
    have hpending := FanIn.pending_next hn
    simp only [Load.rank]
    omega

theorem ranked (F : Foundation) : (machine F).Ranked Load.rank := by
  intro c e c' x hs
  have hrank := Load.step_rank hs
  omega

/-- A load can go on unless nothing of it is left. -/
theorem Load.exists_step (hq : ¬ c.Quiet) : ∃ e, c.step F e ≠ none := by
  rcases ht : c.thread with _ | (_ | ⟨id, ids⟩) | ⟨id, ids⟩
  · by_cases hreq : c.fetch.requests = []
    swap
    · obtain ⟨k, hk⟩ := List.exists_mem_of_ne_nil _ hreq
      have hresp : Fetch.response F c.fetch k (.failure (.alamofire "")) =
          some (c.fetch.settle k none) := Fetch.response_eq_some.mpr ⟨hk, rfl⟩
      exact ⟨.itemResponse k (.failure (.alamofire "")), by simp [Load.step, hresp]⟩
    rcases hqueued : c.fetch.queued with _ | ⟨b, bs⟩
    · exact absurd ⟨ht, hreq, hqueued⟩ hq
    · have hnext := FanIn.next_eq_some.mpr ⟨bs, hqueued, rfl⟩
      exact ⟨.notified, by simp [Load.step, hnext]⟩
  · exact ⟨.background, by simp [Load.step, ht]⟩
  · exact ⟨.background, by simp [Load.step, ht]⟩
  · exact ⟨.background, by simp [Load.step, ht]⟩

theorem Load.Quiet.step_eq_none (hq : c.Quiet) (e : LoadEvent) : c.step F e = none := by
  obtain ⟨ht, hreq, hqueued⟩ := hq
  rcases hs : c.step F e with _ | ⟨c', x⟩
  · rfl
  · cases Load.step_moves hs with
    | enter id ids h => rw [ht] at h; cases h
    | request id ids h => rw [ht] at h; cases h
    | notify h => rw [ht] at h; cases h
    | itemResponse k result hk => rw [hreq] at hk; cases hk
    | notified b fetch hn =>
      obtain ⟨bs, hq, -⟩ := FanIn.next_eq_some.mp hn
      rw [hqueued] at hq
      simp at hq

theorem atRest_iff : (machine F).AtRest s ↔ AllQuiet s := by
  rw [Machine.atRest_iff]
  refine forall₂_congr fun c _ => ⟨fun hrest => ?_, fun hq => hq.step_eq_none⟩
  by_contra hq
  obtain ⟨e, he⟩ := Load.exists_step hq
  exact he (hrest e)

/-- The steps of a load of an item with these `kids`: for each id an `enter`,
a request and a response, and the loop's end and the publishing block. -/
def stepsFor (kids : Option (List ℤ)) : ℕ := kids.elim 0 fun kids => 3 * kids.length + 2

theorem started_rank (item : Item) : (started item).rank = stepsFor item.kids := by
  rcases hkids : item.kids with _ | kids <;> simp [started, Load.rank, hkids, stepsFor, Thread.rank,
    FanIn.pending]

/-- A load has no steps left when nothing of it is left. -/
theorem Load.Inv.rank_eq_zero (h : c.Inv) : c.rank = 0 ↔ c.Quiet := by
  constructor
  · intro hrank
    by_contra hq
    obtain ⟨e, he⟩ : ∃ e, c.step .plain e ≠ none := Load.exists_step hq
    obtain ⟨⟨c', x⟩, hs⟩ := Option.ne_none_iff_exists'.mp he
    have hlt := Load.step_rank hs
    omega
  · rintro ⟨ht, hreq, hqueued⟩
    have hw := h.fetch.waiting_nil hreq
    simp [Load.rank, FanIn.pending, ht, hreq, hqueued, hw]

/-- **The steps of a load.** Those a load has made and those it has left are
those its item takes, so nothing of it is left when it has made them all. -/
theorem load_steps (h : Runs F item es s) (hc : s.calls[r]? = some c) :
    (eventsOf r es).length + c.rank = stepsFor item.kids ∧
    (c.Quiet ↔ (eventsOf r es).length = stepsFor item.kids) := by
  have hlink := links h r
  rw [hc] at hlink
  obtain ⟨-, hinv, hkids, -⟩ := hlink
  have hsteps : (eventsOf r es).length + c.rank = stepsFor c.kids := by
    refine Machine.calls_history (H := fun l c => l.length + c.rank = stepsFor c.kids) ?_ ?_ h hc
    · rintro n g ⟨⟩ g' new hu d hd
      obtain ⟨item', rfl⟩ := viewWillAppear_started n g d (by rw [Option.some.inj hu]; exact hd)
      rw [List.length_nil, Nat.zero_add]
      exact started_rank item'
    · intro l c e c' x hl hs
      have hs : c.step F e = some (c', x) := hs
      have hrank := Load.step_rank hs
      rw [Load.step_kids hs, ← hl, List.length_append, List.length_singleton]
      omega
  rw [hkids] at hsteps
  refine ⟨hsteps, ?_⟩
  rw [← hinv.rank_eq_zero]
  omega

theorem load_steps_one : ∃ s c, Runs .plain { kids := some [7] } loadsOne s ∧
    s.calls[0]? = some c ∧ c.Quiet :=
  ⟨_, _, rfl, rfl, (@load_steps .plain { kids := some [7] } loadsOne _ 0 _ rfl rfl).2.mpr rfl⟩

theorem viewWillAppear_appeared (n : ℕ) (g : Controller) : (viewWillAppear n g).1.appeared = true := by
  have hsuper : (superViewWillAppear g).appeared = true := by
    unfold superViewWillAppear
    by_cases happ : g.appeared = true
    · rw [if_pos happ]
      exact happ
    · rw [if_neg happ]
      rfl
  rcases hitem : g.item with _ | item
  · simp only [viewWillAppear, reloadData, superViewWillAppear_item, hitem]
    split <;> exact hsuper
  · rw [viewWillAppear_eq hitem]
    split
    · dsimp only
      split <;> exact hsuper
    · exact hsuper

/-- A screen that has appeared stays so. -/
theorem appeared_of_run (h : run (machine F).step s es = some s') :
    s.ctrl.appeared = true → s'.ctrl.appeared = true := by
  intro happ
  refine run_invariant (I := fun s => s.ctrl.appeared = true) happ ?_ h
  intro t e u ht hstep
  rcases e with ⟨⟨⟩⟩ | ⟨r, e⟩
  · rw [step_appear hstep]
    exact viewWillAppear_appeared _ _
  · obtain ⟨c, c', x, -, hx, rfl⟩ := Machine.step_call.mp hstep
    cases Load.step_moves hx with
    | notified b fetch hn => rcases b; exact ht
    | _ => exact ht

/-- **The comments settle.** While the user does nothing the loads of a screen
do not go on for ever, and can always go on to where nothing is left of any.
There each load has completed once, and a screen that had appeared is not
loading: its table view shows a row for each comment. -/
theorem settles (h : Runs F item es s) :
    (∀ f : ℕ → State, f 0 = s → ∃ n, ¬ (machine F).CallStep (f n) (f (n + 1))) ∧
    (∃ es' u, CallsOnly es' ∧ run (machine F).step s es' = some u ∧ (machine F).AtRest u) ∧
    ∀ es' u, CallsOnly es' → run (machine F).step s es' = some u → (machine F).AtRest u →
      (∀ r < s.calls.length, u.ctrl.completed.count r = 1) ∧
      (s.ctrl.appeared = true → u.ctrl.loadingKids = false ∧
        ∃ t, u.ctrl.table = some t ∧ t.rows[1]? = some u.ctrl.kids.length) := by
  refine ⟨fun f _ => Machine.no_infinite_run (ranked F) f, ?_, fun es' u hes hrun hrest => ?_⟩
  · obtain ⟨es', u, hes, hrun, hrest⟩ := Machine.exists_rest (ranked F) s
    exact ⟨es', u, hes, hrun, hrest⟩
  · have hq := atRest_iff.mp hrest
    have hu : Runs F item (es ++ es') u := run_append_iff.mpr ⟨s, h, hrun⟩
    refine ⟨fun r hr => ?_, fun happ => ?_⟩
    · have hlt : r < u.calls.length := lt_of_lt_of_le hr (Machine.calls_length_le hrun)
      exact completed_of_quiet hu (List.getElem?_eq_getElem hlt) (hq _ (List.getElem_mem hlt))
    · exact loaded_of_quiet hu (appeared_of_run hrun happ) hq

end DetailViewController
end Workshop2018
