/-
# The list's table view

`items` is assigned, and `loadingItems` cleared, only as a completion runs, and
both completions reload the table. So the layout the table view holds is that
of the fields as they are (`synced`), and each of its index paths has the item
it had when the layout was obtained.

`loadingItems` is cleared by the completion of `viewWillAppear` and not by that
of `pullToRefresh`: the list shows what it holds after a reload has completed
if and only if the first reload to complete was one that an appearance started.

Key definitions: `Synced`, `Visible`, `FirstByAppearance`.
Key theorems: `synced`, `table_index_paths`, `visible_iff`.
-/
import Workshop2018.Screens.ListItems

namespace Workshop2018
namespace ListViewController

open Concurrent

variable {F : Foundation} {es : List (Event UIEvent CallEvent)} {e : Event UIEvent CallEvent}
  {s s' : State} {r : ℕ} {c : Call}

/-! ### The layout held -/

/-- The layout the table view holds is the one it would obtain now. -/
def Synced (g : Controller) : Prop := ∀ t, g.table = some t → (reloadTable g).table = some t

theorem reloadTable_synced (g : Controller) : Synced (reloadTable g) := fun _ ht => ht

theorem complete_synced (r : ℕ) (b : Completion) (g : Controller) : Synced (complete r b g) := by
  cases b <;> exact reloadTable_synced _

theorem synced (h : Runs F es s) : Synced s.ctrl := by
  refine run_invariant (I := fun s => Synced s.ctrl) (fun _ ht => by cases ht) ?_ h
  intro s e s' hs hstep
  have hw := step_writes hstep
  generalize s'.ctrl = g at hw ⊢
  cases hw with
  | appear =>
    unfold superViewWillAppear
    split
    · exact hs
    · exact reloadTable_synced _
  | pull => exact hs
  | progress _ _ _ _ => exact hs
  | publish r c b fetch hc hn => exact complete_synced _ _ _
  | present r c error alerts hc ha => exact complete_synced _ _ _

/-- An index path of a layout the controller gives is that of one of the items. -/
theorem has_reloadTable {g : Controller} {t : Table} {ip : IndexPath}
    (ht : (reloadTable g).table = some t) (hip : t.Has ip) :
    t.shown = g.items ∧ ip.section < g.items.length := by
  cases ht
  refine ⟨rfl, ?_⟩
  obtain ⟨hsection, hrow⟩ := Table.reloadData_has.mp hip
  by_cases hl : g.loadingItems = true
  · -- a list that is loading gives a section without rows
    rw [numberOfRowsInSection, if_pos hl] at hrow
    omega
  · rwa [numberOfSections, if_neg hl] at hsection

/-- The destination of the segue, for the item at the row: a detail controller
prepared with it. -/
theorem didSelectRowAt_eq {g : Controller} {ip : IndexPath} {item : Item}
    (h : g.items[ip.section]? = some item) :
    didSelectRowAt g ip = .ok (DetailViewController.prepared item).ctrl := by
  unfold didSelectRowAt
  rw [subscript_eq_ok h]
  rfl

/-- The cell at an index path is that of the item of its section. -/
theorem cellForRowAt_eq {g : Controller} {ip : IndexPath} {item : Item}
    (h : g.items[ip.section]? = some item) : cellForRowAt F g ip = .ok (ItemCell.of F item) := by
  unfold cellForRowAt
  rw [subscript_eq_ok h]
  rfl

/-- **The rows of the list.** At each index path of the layout held, the
subscripts of `cellForRowAt` and `didSelectRowAt` are in bounds; the item the
cell shows is the one the detail controller is prepared with, and the one that
stood there when the layout was obtained. -/
theorem table_index_paths (h : Runs F es s) {t : Table} (ht : s.ctrl.table = some t)
    {ip : IndexPath} (hip : t.Has ip) :
    ip.section < s.ctrl.items.length ∧ ∃ item, t.shown[ip.section]? = some item ∧
      cellForRowAt F s.ctrl ip = .ok (ItemCell.of F item) ∧ (ItemCell.of F item).Shows item ∧
      ∃ detailVC, didSelectRowAt s.ctrl ip = .ok detailVC ∧ detailVC.item = some item := by
  obtain ⟨hshown, hlt⟩ := has_reloadTable (synced h t ht) hip
  have hitem : s.ctrl.items[ip.section]? = some s.ctrl.items[ip.section] :=
    List.getElem?_eq_getElem hlt
  exact ⟨hlt, s.ctrl.items[ip.section], by rw [hshown, hitem], cellForRowAt_eq hitem,
    ItemCell.of_shows F _, _, didSelectRowAt_eq hitem, rfl⟩

/-- After a refresh that has taken a row away. -/
theorem table_index_paths_refreshed : ∃ s t, Runs .plain refreshed s ∧ s.ctrl.table = some t ∧
    t.rows = [1] ∧ t.Has ⟨0, 0⟩ ∧ ∃ item, t.shown[0]? = some item ∧
      cellForRowAt .plain s.ctrl ⟨0, 0⟩ = .ok (ItemCell.of .plain item) ∧
      (ItemCell.of .plain item).Shows item ∧
      ∃ detailVC, didSelectRowAt s.ctrl ⟨0, 0⟩ = .ok detailVC ∧ detailVC.item = some item := by
  have hip : Table.Has ⟨[1], [{ id := some 2 }]⟩ ⟨0, 0⟩ := ⟨1, rfl, by decide⟩
  obtain ⟨-, item, hshown, hcell⟩ := @table_index_paths .plain refreshed _ rfl _ rfl _ hip
  exact ⟨_, _, rfl, rfl, rfl, hip, item, hshown, hcell⟩

/-- A list of one item, after its first load. -/
def loadsOne : List (Event UIEvent CallEvent) :=
  [.ui .viewWillAppear, .call 0 .background, .call 0 (.idsResponse (Network.idsResult [1])),
    .call 0 (.itemResponse 0 (Network.itemResult { id := some 1 })), .call 0 .notified]

/-! ### What is published and what is seen -/

/-- Once a reload has completed, the list shows its items: a section of one
row for each, none of them titled as loading. -/
def Visible (g : Controller) : Prop :=
  g.completed ≠ [] → g.loadingItems = false ∧ numberOfSections g = g.items.length ∧
    (∀ i, numberOfRowsInSection g i = 1) ∧ ∀ i, titleForHeaderInSection g i ≠ some "Loading ..."

theorem visible_of_loadingItems {g : Controller} (h : g.completed ≠ [] → g.loadingItems = false) :
    Visible g := by
  intro hne
  have hl := h hne
  refine ⟨hl, by simp [numberOfSections, hl], fun i => by simp [numberOfRowsInSection, hl], ?_⟩
  intro i
  cases i <;> simp [titleForHeaderInSection, hl]

/-- The reload whose completion the event runs. -/
def completing : Event UIEvent CallEvent → Option ℕ
  | .call r .notified => some r
  | .call r .failed => some r
  | _ => none

/-- While no reload has completed, only one that an appearance started does. -/
def FirstByAppearance (s : State) (e : Event UIEvent CallEvent) : Prop :=
  s.ctrl.completed = [] → ∀ r ∈ completing e, ∀ c ∈ s.calls[r]?, c.completion = .viewWillAppear

instance (s : State) (e : Event UIEvent CallEvent) : Decidable (FirstByAppearance s e) := by
  unfold FirstByAppearance; infer_instance

/-- A step that runs no completion leaves the completions run and the flag as
they were, and the refresh control but for a pull; one that does adds the
completion, and clears the flag or the refresh control, as it is that of
`viewWillAppear` or of `pullToRefresh`. -/
theorem step_completes (h : Runs F es s) (hstep : (machine F).step s e = some s') :
    (completing e = none ∧ s'.ctrl.completed = s.ctrl.completed ∧
      s'.ctrl.loadingItems = s.ctrl.loadingItems ∧
      (e ≠ .ui .pullToRefresh → s'.ctrl.refreshing = s.ctrl.refreshing)) ∨
    ∃ r c, completing e = some r ∧ s.calls[r]? = some c ∧
      s'.ctrl.completed = s.ctrl.completed ++ [r] ∧
      (c.completion = .viewWillAppear →
        s'.ctrl.loadingItems = false ∧ s'.ctrl.refreshing = s.ctrl.refreshing) ∧
      (c.completion = .pullToRefresh →
        s'.ctrl.loadingItems = s.ctrl.loadingItems ∧ s'.ctrl.refreshing = false) := by
  have hw := step_writes hstep
  generalize s'.ctrl = g at hw ⊢
  cases hw with
  | appear => exact Or.inl ⟨rfl, by simp, by simp, by simp⟩
  | pull => exact Or.inl ⟨rfl, rfl, rfl, fun hne => absurd rfl hne⟩
  | progress r e hn hf =>
    refine Or.inl ⟨?_, rfl, rfl, fun _ => rfl⟩
    cases e <;> simp_all [completing]
  | publish r c b fetch hc hn =>
    have hlink := links h r
    rw [hc] at hlink
    obtain rfl := hlink.1.next_completion hn
    refine Or.inr ⟨r, c, rfl, hc, by simp, fun hb => ?_, fun hb => ?_⟩ <;> rw [hb] <;>
      exact ⟨rfl, rfl⟩
  | present r c error alerts hc ha =>
    refine Or.inr ⟨r, c, rfl, hc, by simp, fun hb => ?_, fun hb => ?_⟩ <;> rw [hb] <;>
      exact ⟨rfl, rfl⟩

/-- The flag is set from the start, and no step but a completion touches it. -/
theorem loadingItems_of_none_completed (h : Runs F es s) :
    s.ctrl.completed = [] → s.ctrl.loadingItems = true := by
  refine run_history (P := fun _ s => s.ctrl.completed = [] → s.ctrl.loadingItems = true)
    (fun _ => rfl) ?_ h
  intro es s e s' hrun hs hstep hnil
  rcases step_completes hrun hstep with ⟨-, hcomp, hload, -⟩ | ⟨r, c, -, -, hcomp, -, -⟩
  · rw [hload]
    exact hs (hcomp ▸ hnil)
  · simp [hcomp] at hnil

theorem loadingItems_of_first (hC : Along (machine F).step FirstByAppearance { ctrl := {} } es)
    (h : Runs F es s) : s.ctrl.completed ≠ [] → s.ctrl.loadingItems = false := by
  refine run_invariant_along (I := fun s => s.ctrl.completed ≠ [] → s.ctrl.loadingItems = false)
    (fun hne => absurd rfl hne) ?_ hC h
  intro es s e s' hrun hs hfirst hstep hne
  rcases step_completes hrun hstep with ⟨-, hcomp, hload, -⟩ | ⟨r, c, hr, hc, -, happear, hpull⟩
  · rw [hload]
    exact hs (hcomp ▸ hne)
  · by_cases hnil : s.ctrl.completed = []
    · exact (happear (hfirst hnil r hr c hc)).1
    · rcases hb : c.completion with _ | _
      · exact (happear hb).1
      · rw [(hpull hb).1]
        exact hs hnil

/-- **What is published is seen.** In every state of a run in which a reload
has completed the list shows its items, if and only if the first reload of the
run to complete was started by an appearance and not by a pull. -/
theorem visible_iff (h : Runs F es s) :
    Always (machine F).step (fun s => Visible s.ctrl) { ctrl := {} } es ↔
      Along (machine F).step FirstByAppearance { ctrl := {} } es := by
  constructor
  · intro hall pre e post t he ht hnil r hr c hc
    subst he
    obtain ⟨u, hu, hpre, -⟩ := run_split h ht
    rcases step_completes ht hu with ⟨hnone, -⟩ | ⟨r', c', hr', hc', hcomp, -, hpull⟩
    · rw [hnone] at hr
      simp at hr
    · obtain rfl : r' = r := Option.some.inj (hr'.symm.trans hr)
      obtain rfl : c' = c := Option.some.inj (hc'.symm.trans hc)
      by_contra hb
      have hb' : c'.completion = .pullToRefresh := by
        cases hcb : c'.completion <;> simp_all
      -- the pull's completion has left the flag set
      have hvis : u.ctrl.loadingItems = false :=
        (hall (pre ++ [e]) u (by simp) hpre (by simp [hcomp])).1
      rw [(hpull hb').1, loadingItems_of_none_completed ht hnil] at hvis
      simp at hvis
  · exact Along.always fun pre t hC ht => visible_of_loadingItems (loadingItems_of_first hC ht)

theorem visible_iff_refreshed : ∃ s, Runs .plain refreshed s ∧ s.ctrl.completed = [0, 1] ∧
    Always (machine .plain).step (fun s => Visible s.ctrl) { ctrl := {} } refreshed := by
  refine ⟨_, rfl, rfl, ?_⟩
  exact (@visible_iff .plain refreshed _ rfl).mpr (by decide)

/-- The user pulls while the first load is in flight, and the reload of the
pull completes first: the list has an item and shows none. -/
theorem hidden_after_pull : ∃ s, Runs .plain
    [.ui .viewWillAppear, .ui .pullToRefresh, .call 1 .background,
      .call 1 (.idsResponse (Network.idsResult [1])),
      .call 1 (.itemResponse 0 (Network.itemResult { id := some 1 })), .call 1 .notified] s ∧
    s.ctrl.items = [{ id := some 1 }] ∧ s.ctrl.completed = [1] ∧ s.ctrl.table = some ⟨[0], s.ctrl.items⟩ ∧
    titleForHeaderInSection s.ctrl 0 = some "Loading ..." ∧ ¬ Visible s.ctrl :=
  ⟨_, rfl, rfl, rfl, rfl, rfl, fun hvis => by cases (hvis (by decide)).1⟩

end ListViewController
end Workshop2018
