/-
# No screen is left loading

What a controller waits for is a completion that has not run: while the list
that has appeared is loading, that of a reload an appearance started; while
the refresh control is refreshing, that of a reload a pull started
(`Pending`); while the comments of a screen that has appeared are loading,
that of a load. A reload or load with nothing left has run its completion, so
when none has anything left neither screen waits.

Key definitions: `ListViewController.Pending`, `ListViewController.Waits`.
Key theorems: `ListViewController.waits`, `DetailViewController.appeared_calls`, `no_screen_loading`.
-/
import Workshop2018.Screens.ListTable
import Workshop2018.Screens.DetailTable

namespace Workshop2018

open Concurrent

namespace ListViewController

variable {F : Foundation} {es : List (Event UIEvent CallEvent)} {e : Event UIEvent CallEvent}
  {s s' : State} {r : ℕ} {c : Call}

/-- A reload called with completion `b` has not completed. -/
def Pending (b : Completion) (s : State) : Prop :=
  ∃ r c, s.calls[r]? = some c ∧ c.completion = b ∧ r ∉ s.ctrl.completed

/-- The users of the app pull only a list that has appeared. -/
def PulledAfterAppearing (s : State) (e : Event UIEvent CallEvent) : Prop :=
  match e with
  | .ui .pullToRefresh => s.ctrl.appeared = true
  | _ => True

instance (s : State) : ∀ e, Decidable (PulledAfterAppearing s e)
  | .ui .viewWillAppear => isTrue trivial
  | .ui .pullToRefresh => by unfold PulledAfterAppearing; infer_instance
  | .call _ _ => isTrue trivial

/-- What the list waits for. -/
structure Waits (s : State) : Prop where
  fresh : s.ctrl.appeared = false → s.calls = [] ∧ s.ctrl.items = []
  table : s.ctrl.appeared = true → s.ctrl.table ≠ none
  loading : s.ctrl.appeared = true → s.ctrl.loadingItems = true → Pending .viewWillAppear s
  refreshing : s.ctrl.refreshing = true → Pending .pullToRefresh s

/-- A reload keeps the completion it was called with. -/
theorem Call.step_completion {e : CallEvent} {c' : Call} {x : Effect}
    (hs : c.step F e = some (c', x)) : c'.completion = c.completion := by
  cases Call.step_moves hs <;> rfl

/-- A reload that has not started has not completed. -/
theorem not_completed_of_length (h : Runs F es s) : s.calls.length ∉ s.ctrl.completed := by
  have hlink := links h s.calls.length
  rw [List.getElem?_eq_none le_rfl] at hlink
  exact List.count_eq_zero.mp hlink.1

/-- A step leaves each reload there is the completion it was called with. -/
theorem step_completion (hstep : (machine F).step s e = some s') (hc : s.calls[r]? = some c) :
    ∃ d, s'.calls[r]? = some d ∧ d.completion = c.completion := by
  have hlt : r < s.calls.length := (List.getElem?_eq_some_iff.mp hc).1
  rcases e with u | ⟨r', e⟩
  · obtain ⟨g, new, -, rfl⟩ := Machine.step_ui.mp hstep
    refine ⟨c, ?_, rfl⟩
    rw [List.getElem?_append_left hlt, hc]
  · obtain ⟨c', d, x, hc', hx, rfl⟩ := Machine.step_call.mp hstep
    have hx : c'.step F e = some (d, x) := hx
    show ∃ d', (s.calls.set r' d)[r]? = some d' ∧ _
    rw [Machine.getElem?_set_call hc']
    by_cases hr : r = r'
    · subst hr
      obtain rfl : c' = c := Option.some.inj (hc'.symm.trans hc)
      exact ⟨d, if_pos rfl, Call.step_completion hx⟩
    · exact ⟨c, by rw [if_neg hr, hc], rfl⟩

/-- A wait ends only with a completion that was waited for. -/
theorem Pending.step {b : Completion} (h : Pending b s) (hrun : Runs F es s)
    (hstep : (machine F).step s e = some s') : Pending b s' ∨
      ∃ r c, completing e = some r ∧ s.calls[r]? = some c ∧ c.completion = b := by
  obtain ⟨r, c, hc, hb, hr⟩ := h
  obtain ⟨d, hd, hdb⟩ := step_completion hstep hc
  rcases step_completes hrun hstep with ⟨-, heq, -⟩ | ⟨r', c', hr', hc', heq, -⟩
  · exact Or.inl ⟨r, d, hd, hdb.trans hb, heq ▸ hr⟩
  · by_cases hrr : r = r'
    · subst hrr
      exact Or.inr ⟨r, c, hr', hc, hb⟩
    · refine Or.inl ⟨r, d, hd, hdb.trans hb, ?_⟩
      rw [heq, List.mem_append, List.mem_singleton, not_or]
      exact ⟨hr, hrr⟩

theorem Pending.kept {b : Completion} (h : Pending b s) (hrun : Runs F es s)
    (hstep : (machine F).step s e = some s')
    (hne : ∀ r c, completing e = some r → s.calls[r]? = some c → c.completion ≠ b) :
    Pending b s' := by
  rcases h.step hrun hstep with h' | ⟨r, c, hr, hc, hb⟩
  · exact h'
  · exact absurd hb (hne r c hr hc)

theorem Pending.ui {b : Completion} (h : Pending b s) (hrun : Runs F es s) {u : UIEvent}
    (hstep : (machine F).step s (.ui u) = some s') : Pending b s' := by
  exact h.kept hrun hstep fun r c hr _ => by cases hr

/-- The first appearance starts a reload: there are no items yet. -/
theorem Waits.appear (h : Waits s) (hrun : Runs F es s)
    (hstep : (machine F).step s (.ui .viewWillAppear) = some s') : Waits s' := by
  have hpend : ∀ b, Pending b s → Pending b s' := fun b hb => hb.ui hrun hstep
  have hctrl : s'.ctrl = superViewWillAppear s.ctrl := by rw [step_appear hstep]
  by_cases happ : s.ctrl.appeared = true
  · have hsame : s'.ctrl = s.ctrl := by rw [hctrl, superViewWillAppear, if_pos happ]
    refine ⟨fun hn => ?_, fun ha => ?_, fun ha hl => ?_, fun hr => ?_⟩
    · rw [hsame, happ] at hn
      cases hn
    · rw [hsame]
      exact h.table happ
    · exact hpend _ (h.loading happ (hsame ▸ hl))
    · exact hpend _ (h.refreshing (hsame ▸ hr))
  · obtain ⟨hcalls, hitems⟩ := h.fresh (by simpa using happ)
    have hnew : s'.ctrl = reloadTable { s.ctrl with appeared := true } := by
      rw [hctrl, superViewWillAppear, if_neg happ]
    have hload : Pending .viewWillAppear s' := by
      refine ⟨0, reloadData .viewWillAppear, ?_, rfl, ?_⟩
      · rw [step_appear hstep]
        simp [hcalls, hitems]
      · have hno := not_completed_of_length hrun
        rw [hcalls] at hno
        rw [hnew]
        exact hno
    refine ⟨fun hn => ?_, fun _ => ?_, fun _ _ => hload, fun hr => ?_⟩
    · rw [hnew] at hn
      cases hn
    · rw [hnew]
      exact Option.some_ne_none _
    · rw [hnew] at hr
      exact hpend _ (h.refreshing hr)

theorem Waits.pull (h : Waits s) (hrun : Runs F es s) (happ : s.ctrl.appeared = true)
    (hstep : (machine F).step s (.ui .pullToRefresh) = some s') : Waits s' := by
  have hpend : ∀ b, Pending b s → Pending b s' := fun b hb => hb.ui hrun hstep
  have hno := not_completed_of_length hrun
  obtain rfl := step_pull hstep
  refine ⟨fun hn => ?_, fun _ => h.table happ, fun _ hl => hpend _ (h.loading happ hl), fun _ => ?_⟩
  · have hn : s.ctrl.appeared = false := hn
    rw [happ] at hn
    cases hn
  · refine ⟨s.calls.length, reloadData .pullToRefresh, ?_, rfl, hno⟩
    exact List.getElem?_concat_length

theorem Waits.call (h : Waits s) (hrun : Runs F es s) {e : CallEvent}
    (hstep : (machine F).step s (.call r e) = some s') : Waits s' := by
  obtain ⟨c, -, -, hc, -, -⟩ := Machine.step_call.mp hstep
  have happ : s.ctrl.appeared = true := by
    by_contra hn
    rw [(h.fresh (by simpa using hn)).1] at hc
    cases hc
  have hkeep : s'.ctrl.appeared = true ∧ s'.ctrl.table ≠ none := by
    have hw := step_writes hstep
    generalize s'.ctrl = g at hw ⊢
    cases hw with
    | progress _ _ _ _ => exact ⟨happ, h.table happ⟩
    | publish _ c b _ _ _ => rcases b <;> exact ⟨happ, Option.some_ne_none _⟩
    | present _ c _ _ _ _ => rcases c.completion <;> exact ⟨happ, Option.some_ne_none _⟩
  refine ⟨fun hn => ?_, fun _ => hkeep.2, fun _ hl => ?_, fun hr => ?_⟩
  · rw [hkeep.1] at hn
    cases hn
  · rcases step_completes hrun hstep with ⟨hnone, -, heq, -⟩ | ⟨r', c', hr', hc', -, hview, hpull⟩
    · refine (h.loading happ (heq ▸ hl)).kept hrun hstep fun r'' c'' hr'' _ => ?_
      rw [hnone] at hr''
      cases hr''
    · rcases hb : c'.completion with _ | _
      · rw [(hview hb).1] at hl
        cases hl
      · refine (h.loading happ ((hpull hb).1 ▸ hl)).kept hrun hstep fun r'' c'' hr'' hc'' => ?_
        obtain rfl := Option.some.inj (hr'.symm.trans hr'')
        obtain rfl := Option.some.inj (hc'.symm.trans hc'')
        simp [hb]
  · rcases step_completes hrun hstep with ⟨hnone, -, -, heq⟩ | ⟨r', c', hr', hc', -, hview, hpull⟩
    · refine (h.refreshing (heq nofun ▸ hr)).kept hrun hstep fun r'' c'' hr'' _ => ?_
      rw [hnone] at hr''
      cases hr''
    · rcases hb : c'.completion with _ | _
      · refine (h.refreshing ((hview hb).2 ▸ hr)).kept hrun hstep fun r'' c'' hr'' hc'' => ?_
        obtain rfl := Option.some.inj (hr'.symm.trans hr'')
        obtain rfl := Option.some.inj (hc'.symm.trans hc'')
        simp [hb]
      · rw [(hpull hb).2] at hr
        cases hr

theorem waits (h : Runs F es s)
    (hC : Along (machine F).step PulledAfterAppearing { ctrl := {} } es) : Waits s := by
  refine run_invariant_along (I := Waits) ?_ ?_ hC h
  · exact ⟨fun _ => ⟨rfl, rfl⟩, nofun, nofun, nofun⟩
  · intro es s e s' hrun hs hpull hstep
    rcases e with ⟨_ | _⟩ | ⟨r, e⟩
    · exact hs.appear hrun hstep
    · exact hs.pull hrun hpull hstep
    · exact hs.call hrun hstep

/-- No reload is unfinished. -/
def AllQuiet (s : State) : Prop := ∀ c ∈ s.calls, c.Quiet

instance (s : State) : Decidable (AllQuiet s) := by unfold AllQuiet; infer_instance

/-- With nothing left of any reload, none is pending. -/
theorem not_pending_of_quiet (h : Runs F es s) (hq : AllQuiet s) (b : Completion) :
    ¬ Pending b s := by
  rintro ⟨r, c, hc, -, hr⟩
  have hcount := completed_of_quiet h hc (hq c (List.mem_of_getElem? hc))
  exact hr (List.count_pos_iff.mp (by omega))

/-- The layout of a list that is not loading: a section of one row for each item. -/
theorem rows_of_loaded {g : Controller} (hs : Synced g) (hl : g.loadingItems = false)
    (ht : g.table ≠ none) :
    ∃ t, g.table = some t ∧ t.rows = List.replicate g.items.length 1 := by
  obtain ⟨t, ht⟩ := Option.ne_none_iff_exists'.mp ht
  refine ⟨t, ht, ?_⟩
  have hrows := hs t ht
  cases hrows
  refine List.eq_replicate_iff.mpr ⟨by simp [Table.reloadData, numberOfSections, hl], fun n hn => ?_⟩
  obtain ⟨i, -, rfl⟩ := List.mem_map.mp hn
  simp [numberOfRowsInSection, hl]

/-- When nothing is left of any reload, a list that has appeared is not
loading, its control is not refreshing, and its table view holds a section of
one row for each item. -/
theorem loaded_of_quiet (h : Runs F es s)
    (hC : Along (machine F).step PulledAfterAppearing { ctrl := {} } es)
    (happ : s.ctrl.appeared = true) (hq : AllQuiet s) :
    s.ctrl.loadingItems = false ∧ s.ctrl.refreshing = false ∧
      ∃ t, s.ctrl.table = some t ∧ t.rows = List.replicate s.ctrl.items.length 1 := by
  have hwaits := waits h hC
  have hnone := not_pending_of_quiet h hq
  have hl : s.ctrl.loadingItems = false := by
    by_contra hl
    exact hnone _ (hwaits.loading happ (by simpa using hl))
  have hr : s.ctrl.refreshing = false := by
    by_contra hr
    exact hnone _ (hwaits.refreshing (by simpa using hr))
  exact ⟨hl, hr, rows_of_loaded (synced h) hl (hwaits.table happ)⟩

/-- A list whose first reload fails, and whose second brings no ids. -/
def bothFail : List (Event UIEvent CallEvent) :=
  [.ui .viewWillAppear, .ui .pullToRefresh, .call 1 .background, .call 0 .background,
    .call 0 (.idsResponse (.failure (.alamofire "offline"))), .call 0 .failed,
    .call 1 (.idsResponse (Network.idsResult [])), .call 1 .notified]

end ListViewController

namespace DetailViewController

variable {F : Foundation} {item : Item} {es : List (Event UIEvent LoadEvent)} {s : State}

/-- A screen that has appeared has started a load: there were no comments yet. -/
theorem appeared_calls (h : Runs F item es s) :
    s.calls = [] → s.ctrl.kids = [] ∧ s.ctrl.appeared = false := by
  refine run_history (P := fun _ s => s.calls = [] → s.ctrl.kids = [] ∧ s.ctrl.appeared = false)
    (fun _ => ⟨rfl, rfl⟩) ?_ h
  intro es s e s' hrun hs hstep hnil
  rcases e with ⟨⟨⟩⟩ | ⟨r, e⟩
  · rw [step_appear hstep, viewWillAppear_eq (item_eq hrun), List.append_eq_nil_iff] at hnil
    rw [if_pos (hs hnil.1).1] at hnil
    cases hnil.2
  · obtain ⟨c, d, x, hc, -, rfl⟩ := Machine.step_call.mp hstep
    have hset : s.calls.set r d = [] := hnil
    rw [List.set_eq_nil_iff] at hset
    rw [hset] at hc
    cases hc

/-- No load is unfinished. -/
def AllQuiet (s : State) : Prop := ∀ c ∈ s.calls, c.Quiet

instance (s : State) : Decidable (AllQuiet s) := by unfold AllQuiet; infer_instance

/-- When nothing is left of any load, a screen that has appeared is not
loading, and its table view holds a row for each comment. -/
theorem loaded_of_quiet (h : Runs F item es s) (happ : s.ctrl.appeared = true) (hq : AllQuiet s) :
    s.ctrl.loadingKids = false ∧
      ∃ t, s.ctrl.table = some t ∧ t.rows[1]? = some s.ctrl.kids.length := by
  refine ⟨loadingKids_of_completed h ?_, _, synced h, rfl⟩
  rcases hcalls : s.calls with _ | ⟨c, cs⟩
  · rw [(appeared_calls h hcalls).2] at happ
    cases happ
  · have hc : s.calls[0]? = some c := by rw [hcalls]; rfl
    have hcount := completed_of_quiet h hc (hq c (List.mem_of_getElem? hc))
    have hpos : 0 < s.ctrl.completed.count 0 := by omega
    exact List.ne_nil_of_mem (List.count_pos_iff.mp hpos)

/-- One load, which publishes a comment. -/
def loadsOne : List (Event UIEvent LoadEvent) :=
  [.ui .viewWillAppear, .call 0 .background, .call 0 .background, .call 0 .background,
    .call 0 (.itemResponse 0 (Network.itemResult { id := some 7 })), .call 0 .notified]

end DetailViewController

/-- **No screen is left loading.** When nothing is left of any reload, a list
that has appeared, and was pulled only since, is not loading, its refresh
control is not refreshing, and its table view holds a section of one row for
each item. When nothing is left of any load, an item's screen that has
appeared is not loading, and its table view holds a row for each comment. -/
theorem no_screen_loading (F : Foundation) :
    (∀ es s, ListViewController.Runs F es s →
      Along (ListViewController.machine F).step ListViewController.PulledAfterAppearing
        { ctrl := {} } es →
      s.ctrl.appeared = true → ListViewController.AllQuiet s →
      s.ctrl.loadingItems = false ∧ s.ctrl.refreshing = false ∧
        ∃ t, s.ctrl.table = some t ∧ t.rows = List.replicate s.ctrl.items.length 1) ∧
    ∀ item es s, DetailViewController.Runs F item es s →
      s.ctrl.appeared = true → DetailViewController.AllQuiet s →
      s.ctrl.loadingKids = false ∧
        ∃ t, s.ctrl.table = some t ∧ t.rows[1]? = some s.ctrl.kids.length := by
  refine ⟨fun es s h hC happ hq => ?_, fun item es s h happ hq => ?_⟩
  · exact ListViewController.loaded_of_quiet h hC happ hq
  · exact DetailViewController.loaded_of_quiet h happ hq

/-- A list whose reloads have failed or brought no ids, and an item whose
comment has come, are not left loading. -/
theorem no_screen_loading_failures :
    (∃ s, ListViewController.Runs .plain ListViewController.bothFail s ∧
      s.ctrl.loadingItems = false ∧ s.ctrl.refreshing = false) ∧
    ∃ s, DetailViewController.Runs .plain { kids := some [7] }
        DetailViewController.loadsOne s ∧ s.ctrl.loadingKids = false := by
  refine ⟨⟨_, rfl, ?_⟩, _, rfl, ?_⟩
  · have h := (no_screen_loading .plain).1 ListViewController.bothFail _ rfl (by decide) rfl
      (by decide)
    exact ⟨h.1, h.2.1⟩
  · exact ((no_screen_loading .plain).2 { kids := some [7] } DetailViewController.loadsOne _ rfl
      rfl (by decide)).1

end Workshop2018
