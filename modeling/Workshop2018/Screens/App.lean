/-
# The app: the list and the item screens opened from it

A tap on a row of the list opens an item screen of its own; the user may go
back and tap again, so there may be any number of item screens, each with
loads that go on when it is no longer seen. The app is once more a controller
with calls: the list, and the item screens it has opened.

The list of a run of the app is in a run of the list, and each of its item
screens in a run of one (`list_runs`, `details_runs`), so what holds of either
holds in the app. A tap on any row held opens a screen for the item that stood
there, which a response has brought (`app_safe`), and left alone every screen
ends up showing what it has (`app_settles`).

Key definitions: `machine`, `Shows`, `listEvents`, `Idle`.
Key theorems: `list_runs`, `details_runs`, `app_safe`, `app_settles`.
-/
import Workshop2018.Screens.Progress

namespace Workshop2018

open Concurrent

namespace App

/-- The list, and what has stopped the program. -/
structure Controller where
  list : ListViewController.State := { ctrl := {} }
  trap : Option Trap := none
  deriving DecidableEq, Repr

/-- A step of the list, or a tap on one of its rows. -/
inductive UIEvent
  | list (e : Event ListViewController.UIEvent ListViewController.CallEvent)
  | select (indexPath : IndexPath)

/-- A step of an item screen. -/
abbrev ScreenEvent := Event DetailViewController.UIEvent DetailViewController.LoadEvent

/-- The list's table view holds a row at the index path. -/
def Shows (g : Controller) (indexPath : IndexPath) : Prop :=
  ∃ t ∈ g.list.ctrl.table, t.Has indexPath

instance (g : Controller) (indexPath : IndexPath) : Decidable (Shows g indexPath) := by
  unfold Shows; infer_instance

/-- `didSelectRowAt`, and the controller it leads to. -/
def select (g : Controller) (indexPath : IndexPath) : Controller × List DetailViewController.State :=
  match ListViewController.didSelectRowAt g.list.ctrl indexPath with
  | .error trap => ({ g with trap := some trap }, [])
  | .ok detailVC => (g, [{ ctrl := detailVC }])

def machine (F : Foundation) :
    Machine Controller DetailViewController.State UIEvent ScreenEvent Unit where
  ui _ g
    | .list e => ((ListViewController.machine F).step g.list e).map fun list => ({ g with list }, [])
    | .select indexPath => if Shows g indexPath then some (select g indexPath) else none
  call screen e := ((DetailViewController.machine F).step screen e).map fun screen => (screen, ())
  apply _ _ g := g

abbrev State := Pool Controller DetailViewController.State

/-- The events `es` take the app from its launch to `s`. -/
def Runs (F : Foundation) (es : List (Event UIEvent ScreenEvent)) (s : State) : Prop :=
  run (machine F).step { ctrl := {} } es = some s

variable {F : Foundation} {es : List (Event UIEvent ScreenEvent)} {e : Event UIEvent ScreenEvent}
  {s s' : State} {ip : IndexPath} {d : ℕ} {screen : DetailViewController.State}

/-! ### What a step of the app does -/

theorem ui_list {n : ℕ} {g g' : Controller} {new : List DetailViewController.State}
    {e : Event ListViewController.UIEvent ListViewController.CallEvent} :
    (machine F).ui n g (.list e) = some (g', new) ↔
      ∃ list, (ListViewController.machine F).step g.list e = some list ∧
        g' = { g with list } ∧ new = [] := by
  show ((ListViewController.machine F).step g.list e).map _ = _ ↔ _
  rw [Option.map_eq_some_iff]
  refine exists_congr fun list => and_congr_right fun _ => ?_
  rw [Prod.mk.injEq, eq_comm, @eq_comm _ [] new]

theorem ui_select {n : ℕ} {g g' : Controller} {new : List DetailViewController.State} :
    (machine F).ui n g (.select ip) = some (g', new) ↔ Shows g ip ∧ select g ip = (g', new) := by
  show (if Shows g ip then some (select g ip) else none) = _ ↔ _
  rw [Option.ite_none_right_eq_some, Option.some.injEq]

theorem call_eq_some {screen' : DetailViewController.State} {e : ScreenEvent} {x : Unit} :
    (machine F).call screen e = some (screen', x) ↔
      (DetailViewController.machine F).step screen e = some screen' := by
  show ((DetailViewController.machine F).step screen e).map _ = _ ↔ _
  simp only [Option.map_eq_some_iff, Prod.mk.injEq, and_true, exists_eq_right]

theorem step_list {e : Event ListViewController.UIEvent ListViewController.CallEvent} :
    (machine F).step s (.ui (.list e)) = some s' ↔
      ∃ list, (ListViewController.machine F).step s.ctrl.list e = some list ∧
        s' = { ctrl := { s.ctrl with list }, calls := s.calls } := by
  rw [Machine.step_ui]
  constructor
  · rintro ⟨g, new, hu, rfl⟩
    obtain ⟨list, hlist, rfl, rfl⟩ := ui_list.mp hu
    exact ⟨list, hlist, by rw [List.append_nil]⟩
  · rintro ⟨list, hlist, rfl⟩
    exact ⟨_, [], ui_list.mpr ⟨list, hlist, rfl, rfl⟩, by rw [List.append_nil]⟩

theorem step_screen {e : ScreenEvent} : (machine F).step s (.call d e) = some s' ↔
    ∃ screen screen', s.calls[d]? = some screen ∧
      (DetailViewController.machine F).step screen e = some screen' ∧
      s' = { ctrl := s.ctrl, calls := s.calls.set d screen' } := by
  rw [Machine.step_call]
  constructor
  · rintro ⟨screen, screen', x, hscreen, hx, rfl⟩
    exact ⟨screen, screen', hscreen, call_eq_some.mp hx, rfl⟩
  · rintro ⟨screen, screen', hscreen, hstep, rfl⟩
    exact ⟨screen, screen', (), hscreen, call_eq_some.mpr hstep, rfl⟩

/-- What `didSelectRowAt` leads to is an item's screen, prepared. -/
theorem didSelectRowAt_prepared {g : ListViewController.Controller}
    {detailVC : DetailViewController.Controller}
    (h : ListViewController.didSelectRowAt g ip = .ok detailVC) :
    ∃ item, g.items[ip.section]? = some item ∧
      ({ ctrl := detailVC } : DetailViewController.State) = DetailViewController.prepared item := by
  rcases hitem : g.items[ip.section]? with _ | item
  · simp [ListViewController.didSelectRowAt, subscript, hitem, Except.map] at h
  · rw [ListViewController.didSelectRowAt_eq hitem] at h
    exact ⟨item, rfl, by rw [← Except.ok.inj h]; rfl⟩

/-- **A tap opens an item's screen.** The item stands in the list at the row
tapped, and stood there when the layout was obtained. -/
theorem step_select (hlist : ListViewController.Synced s.ctrl.list.ctrl)
    (hstep : (machine F).step s (.ui (.select ip)) = some s') :
    ∃ t item, s.ctrl.list.ctrl.table = some t ∧ t.shown[ip.section]? = some item ∧
      s.ctrl.list.ctrl.items[ip.section]? = some item ∧
      s' = { ctrl := s.ctrl, calls := s.calls ++ [DetailViewController.prepared item] } := by
  obtain ⟨g, new, hu, rfl⟩ := Machine.step_ui.mp hstep
  obtain ⟨⟨t, ht, hip⟩, hu⟩ := ui_select.mp hu
  obtain ⟨hshown, hlt⟩ := ListViewController.has_reloadTable (hlist t ht) hip
  have hitem : s.ctrl.list.ctrl.items[ip.section]? = some s.ctrl.list.ctrl.items[ip.section] :=
    List.getElem?_eq_getElem hlt
  have hselect : select s.ctrl ip =
      (s.ctrl, [DetailViewController.prepared s.ctrl.list.ctrl.items[ip.section]]) := by
    unfold select
    rw [ListViewController.didSelectRowAt_eq hitem]
    rfl
  obtain ⟨rfl, rfl⟩ := Prod.mk.inj (hselect.symm.trans hu)
  exact ⟨t, _, ht, by rw [hshown, hitem], hitem, rfl⟩

/-- A tap on the row of the one item that has come. -/
example : ∃ s, Runs .plain
    ((ListViewController.loadsOne.map fun e => .ui (.list e)) ++ [.ui (.select ⟨0, 0⟩)]) s ∧
    s.calls = [DetailViewController.prepared { id := some 1 }] := ⟨_, rfl, rfl⟩

/-! ### A run of the app, screen by screen -/

/-- The steps of the list among the events. -/
def listEvents (es : List (Event UIEvent ScreenEvent)) :
    List (Event ListViewController.UIEvent ListViewController.CallEvent) :=
  es.filterMap fun
    | .ui (.list e) => some e
    | _ => none

theorem listEvents_append (es fs : List (Event UIEvent ScreenEvent)) :
    listEvents (es ++ fs) = listEvents es ++ listEvents fs := List.filterMap_append

/-- The list of the app is in a run of the list. -/
theorem list_runs (h : Runs F es s) : ListViewController.Runs F (listEvents es) s.ctrl.list := by
  refine run_history (P := fun es (s : State) =>
    ListViewController.Runs F (listEvents es) s.ctrl.list) ?_ ?_ h
  · rfl
  intro es s e s' _ hs hstep
  rw [listEvents_append]
  rcases e with (e | ip) | ⟨d, e⟩
  · obtain ⟨list, hlist, rfl⟩ := step_list.mp hstep
    exact run_snoc.mpr ⟨_, hs, hlist⟩
  · obtain ⟨t, item, -, -, -, rfl⟩ := step_select (ListViewController.synced hs) hstep
    simpa [listEvents] using hs
  · obtain ⟨screen, screen', -, -, rfl⟩ := step_screen.mp hstep
    simpa [listEvents] using hs

/-- Each item screen of the app is in a run of that of some item. -/
theorem details_runs (h : Runs F es s) (hd : s.calls[d]? = some screen) :
    ∃ item, DetailViewController.Runs F item (eventsOf d es) screen := by
  refine Machine.calls_history
    (H := fun l screen => ∃ item, DetailViewController.Runs F item l screen) ?_ ?_ h hd
  · rintro n g (e | ip) g' new hu screen hscreen
    · obtain ⟨list, -, -, rfl⟩ := ui_list.mp hu
      exact absurd hscreen List.not_mem_nil
    · have hselect := (ui_select.mp hu).2
      unfold select at hselect
      split at hselect
      · obtain ⟨-, rfl⟩ := Prod.mk.inj hselect
        exact absurd hscreen List.not_mem_nil
      · rename_i detailVC hok
        obtain ⟨-, rfl⟩ := Prod.mk.inj hselect
        obtain ⟨item, -, hprepared⟩ := didSelectRowAt_prepared hok
        rw [List.mem_singleton.mp hscreen, hprepared]
        exact ⟨item, rfl⟩
  · rintro l screen e screen' x ⟨item, hl⟩ hx
    exact ⟨item, run_snoc.mpr ⟨screen, hl, call_eq_some.mp hx⟩⟩

/-- Each item screen was opened for an item that a response brought. -/
theorem opened_brought (h : Runs F es s) : ∀ screen ∈ s.calls,
    ∃ item, screen.ctrl.item = some item ∧ ListViewController.Brought F item (listEvents es) := by
  refine run_history (P := fun es (s : State) => ∀ screen ∈ s.calls, ∃ item,
    screen.ctrl.item = some item ∧ ListViewController.Brought F item (listEvents es)) ?_ ?_ h
  · exact fun _ hnil => absurd hnil List.not_mem_nil
  intro es s e s' hrun hs hstep screen hscreen
  have hlist := list_runs hrun
  have hmono : ∀ item, ListViewController.Brought F item (listEvents es) →
      ListViewController.Brought F item (listEvents (es ++ [e])) := by
    rintro item ⟨r, k, result, hmem, hitem⟩
    rw [listEvents_append]
    exact ⟨r, k, result, List.mem_append_left _ hmem, hitem⟩
  have hkept : ∀ screen ∈ s.calls, ∃ item, screen.ctrl.item = some item ∧
      ListViewController.Brought F item (listEvents (es ++ [e])) := by
    intro screen hscreen
    obtain ⟨item, hitem, hbrought⟩ := hs screen hscreen
    exact ⟨item, hitem, hmono item hbrought⟩
  rcases e with (e | ip) | ⟨d, e⟩
  · obtain ⟨list, -, rfl⟩ := step_list.mp hstep
    exact hkept screen hscreen
  · obtain ⟨t, item, -, -, hitem, rfl⟩ := step_select (ListViewController.synced hlist) hstep
    rcases List.mem_append.mp hscreen with hold | hnew
    · exact hkept screen hold
    · obtain rfl := List.mem_singleton.mp hnew
      refine ⟨item, rfl, hmono item ?_⟩
      exact ListViewController.brought_of_mem_items hlist (List.mem_of_getElem? hitem)
  · -- a screen keeps its item
    obtain ⟨old, new, hold, hx, rfl⟩ := step_screen.mp hstep
    rcases List.mem_or_eq_of_mem_set hscreen with hmem | rfl
    · exact hkept screen hmem
    · obtain ⟨item, hrun⟩ := details_runs hrun hold
      obtain ⟨item', hitem', hbrought⟩ := hkept old (List.mem_of_getElem? hold)
      obtain rfl := Option.some.inj ((DetailViewController.item_eq hrun).symm.trans hitem')
      exact ⟨item, DetailViewController.item_eq (run_snoc.mpr ⟨old, hrun, hx⟩), hbrought⟩

/-- **The app is safe.** Nothing stops the program: no tap reads past the end
of the items, and no item screen reads a nil item. Each item screen shows an
item that a response brought to the list. -/
theorem app_safe (h : Runs F es s) : s.ctrl.trap = none ∧ ∀ screen ∈ s.calls,
    screen.ctrl.trap = none ∧
      ∃ item, screen.ctrl.item = some item ∧ ListViewController.Brought F item (listEvents es) := by
  refine ⟨?_, fun screen hscreen => ?_⟩
  · refine run_history (P := fun _ (s : State) => s.ctrl.trap = none) rfl ?_ h
    intro es s e s' hrun hs hstep
    rcases e with (e | ip) | ⟨d, e⟩
    · obtain ⟨list, -, rfl⟩ := step_list.mp hstep
      exact hs
    · obtain ⟨t, item, -, -, -, rfl⟩ := step_select (ListViewController.synced (list_runs hrun)) hstep
      exact hs
    · obtain ⟨screen, screen', -, -, rfl⟩ := step_screen.mp hstep
      exact hs
  · obtain ⟨d, hd⟩ := List.mem_iff_getElem?.mp hscreen
    obtain ⟨item, hrun⟩ := details_runs h hd
    exact ⟨DetailViewController.trap_eq hrun, opened_brought h screen hscreen⟩

/-- A list whose one item has come, and a tap on its row. -/
def tapsOne : List (Event UIEvent ScreenEvent) :=
  (ListViewController.loadsOne.map fun e => .ui (.list e)) ++ [.ui (.select ⟨0, 0⟩)]

theorem app_safe_tap : ∃ s, Runs .plain tapsOne s ∧ s.ctrl.trap = none ∧
    ∃ screen ∈ s.calls, screen.ctrl.trap = none := by
  have hsafe := @app_safe .plain tapsOne _ rfl
  exact ⟨_, rfl, hsafe.1, _, List.mem_cons_self, (hsafe.2 _ List.mem_cons_self).1⟩

/-! ### The app left alone -/

/-- The event is not the user's. -/
def Unattended (ev : Event UIEvent ScreenEvent) : Prop :=
  (∃ e, ev = .ui (.list e) ∧ IsCall e) ∨ ∃ d e, ev = .call d e ∧ IsCall e

/-- No reload of the list and no load of an item screen can go on. -/
def Idle (F : Foundation) (s : State) : Prop :=
  (ListViewController.machine F).AtRest s.ctrl.list ∧
    ∀ screen ∈ s.calls, (DetailViewController.machine F).AtRest screen

/-- What is left of the reloads of the list, and of the loads of all item screens. -/
def rank (s : State) : (ℕ ×ₗ ℕ) ×ₗ ℕ :=
  toLex (Machine.total ListViewController.Call.rank s.ctrl.list,
    (s.calls.map (Machine.total DetailViewController.Load.rank)).sum)

theorem lowers (F : Foundation) : Lowers (machine F).step Unattended rank := by
  rintro s ev s' (⟨e, rfl, he⟩ | ⟨d, e, rfl, he⟩) hstep
  · obtain ⟨list, hlist, rfl⟩ := step_list.mp hstep
    have hlt := (ListViewController.ranked F).lowers _ e _ he hlist
    exact Prod.Lex.toLex_lt_toLex.mpr (Or.inl hlt)
  · obtain ⟨screen, screen', hscreen, hx, rfl⟩ := step_screen.mp hstep
    have hlt := (DetailViewController.ranked F).lowers _ e _ he hx
    exact Prod.Lex.toLex_lt_toLex.mpr (Or.inr ⟨rfl, Machine.sum_set_lt hscreen hlt⟩)

theorem idle_of_rest (h : ∀ ev, Unattended ev → (machine F).step s ev = none) : Idle F s := by
  constructor
  · intro r e
    rcases hx : (ListViewController.machine F).step s.ctrl.list (.call r e) with _ | list
    · rfl
    · have hstep := step_list.mpr ⟨list, hx, rfl⟩
      rw [h _ (Or.inl ⟨_, rfl, r, e, rfl⟩)] at hstep
      simp at hstep
  · intro screen hscreen r e
    obtain ⟨d, hd⟩ := List.mem_iff_getElem?.mp hscreen
    rcases hx : (DetailViewController.machine F).step screen (.call r e) with _ | screen'
    · rfl
    · have hstep := step_screen.mpr ⟨screen, screen', hd, hx, rfl⟩
      rw [h _ (Or.inr ⟨d, _, rfl, r, e, rfl⟩)] at hstep
      simp at hstep

/-- The list goes on by its own steps. -/
theorem run_listEvents (h : Runs F es s) {es' : List (Event UIEvent ScreenEvent)}
    (hrun : run (machine F).step s es' = some s') :
    run (ListViewController.machine F).step s.ctrl.list (listEvents es') = some s'.ctrl.list := by
  have hall := list_runs (run_append_iff.mpr ⟨s, h, hrun⟩)
  rw [listEvents_append] at hall
  obtain ⟨list, hlist, hrest⟩ := run_append_iff.mp hall
  obtain rfl := Option.some.inj (hlist.symm.trans (list_runs h))
  exact hrest

theorem callsOnly_listEvents {es' : List (Event UIEvent ScreenEvent)}
    (h : ∀ ev ∈ es', Unattended ev) : CallsOnly (listEvents es') := by
  intro e he
  obtain ⟨ev, hev, heq⟩ := List.mem_filterMap.mp he
  rcases h ev hev with ⟨e', rfl, hcall⟩ | ⟨d, e', rfl, -⟩
  · obtain rfl := Option.some.inj heq
    exact hcall
  · simp at heq

theorem callsOnly_eventsOf {es' : List (Event UIEvent ScreenEvent)}
    (h : ∀ ev ∈ es', Unattended ev) : CallsOnly (eventsOf d es') := by
  intro e he
  rcases h _ (mem_eventsOf.mp he) with ⟨e', heq, -⟩ | ⟨d', e', heq, hcall⟩
  · simp at heq
  · cases heq
    exact hcall

/-- Where the user did nothing since `s`, and nothing more can happen, both
kinds of screen that had appeared show what they have. -/
theorem settled (h : Runs F es s) {es' : List (Event UIEvent ScreenEvent)}
    (hes : ∀ ev ∈ es', Unattended ev) (hrun : run (machine F).step s es' = some s') (hidle : Idle F s') :
    (Along (ListViewController.machine F).step ListViewController.PulledAfterAppearing
        { ctrl := {} } (listEvents es) → s.ctrl.list.ctrl.appeared = true →
      s'.ctrl.list.ctrl.loadingItems = false ∧ s'.ctrl.list.ctrl.refreshing = false ∧
        ∃ t, s'.ctrl.list.ctrl.table = some t ∧
          t.rows = List.replicate s'.ctrl.list.ctrl.items.length 1) ∧
    ∀ (d : ℕ) (screen : DetailViewController.State), s.calls[d]? = some screen →
      screen.ctrl.appeared = true → ∃ screen' : DetailViewController.State,
        s'.calls[d]? = some screen' ∧ screen'.ctrl.loadingKids = false ∧
        ∃ t, screen'.ctrl.table = some t ∧ t.rows[1]? = some screen'.ctrl.kids.length := by
  refine ⟨fun hC happ => ?_, ?_⟩
  · have hlist := (ListViewController.settles (list_runs h)).2.2 _ _ (callsOnly_listEvents hes)
      (run_listEvents h hrun) hidle.1
    exact hlist.2 hC happ
  · intro d screen hd happ
    obtain ⟨item, hscreen⟩ := details_runs h hd
    obtain ⟨screen', hd', hrun'⟩ := Machine.call_goes_on
      (H := fun l screen' => run (DetailViewController.machine F).step screen l = some screen')
      (fun l c e c' x hl hx => run_snoc.mpr ⟨c, hl, call_eq_some.mp hx⟩) hd rfl hrun
    have hsettled := (DetailViewController.settles hscreen).2.2 _ _ (callsOnly_eventsOf hes) hrun'
      (hidle.2 screen' (List.mem_of_getElem? hd'))
    exact ⟨screen', hd', hsettled.2 happ⟩

/-- **The app settles.** While the user does nothing the app does not go on for
ever, and can always go on to where it is idle. There a list that had appeared,
and was pulled only since, shows a row for each of its items, and each item
screen that had appeared a row for each of its comments; neither is loading. -/
theorem app_settles (h : Runs F es s) :
    (∀ f : ℕ → State, ∃ n, ∀ ev, Unattended ev → (machine F).step (f n) ev ≠ some (f (n + 1))) ∧
    (∃ es' u, (∀ ev ∈ es', Unattended ev) ∧ run (machine F).step s es' = some u ∧ Idle F u) ∧
    ∀ es' u, (∀ ev ∈ es', Unattended ev) → run (machine F).step s es' = some u → Idle F u →
      (Along (ListViewController.machine F).step ListViewController.PulledAfterAppearing
          { ctrl := {} } (listEvents es) → s.ctrl.list.ctrl.appeared = true →
        u.ctrl.list.ctrl.loadingItems = false ∧ u.ctrl.list.ctrl.refreshing = false ∧
          ∃ t, u.ctrl.list.ctrl.table = some t ∧
            t.rows = List.replicate u.ctrl.list.ctrl.items.length 1) ∧
      ∀ (d : ℕ) (screen : DetailViewController.State), s.calls[d]? = some screen →
        screen.ctrl.appeared = true → ∃ screen' : DetailViewController.State,
          u.calls[d]? = some screen' ∧ screen'.ctrl.loadingKids = false ∧
          ∃ t, screen'.ctrl.table = some t ∧ t.rows[1]? = some screen'.ctrl.kids.length := by
  refine ⟨(lowers F).no_infinite_run, ?_, fun es' u hes hrun hidle => settled h hes hrun hidle⟩
  obtain ⟨es', u, hes, hrun, hrest⟩ := (lowers F).exists_rest s
  exact ⟨es', u, hes, hrun, idle_of_rest hrest⟩

end App
end Workshop2018
