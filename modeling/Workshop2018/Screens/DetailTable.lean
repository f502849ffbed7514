/-
# The comments and the table view that shows them

`kids` is assigned, and `loadingKids` cleared, only as a completion runs, and
the completion reloads the table: the layout the table view holds is that of
the fields as they are (`synced`). The controller never loses the item it was
prepared with, so nothing it reads is nil.

Key definitions: `Writes`, `Synced`, `announcement`.
Key theorems: `step_writes`, `synced`, `comments_index_paths`.
-/
import Workshop2018.Screens.DetailLoads

namespace Workshop2018
namespace DetailViewController

open Concurrent

variable {F : Foundation} {item : Item} {es : List (Event UIEvent LoadEvent)}
  {e : Event UIEvent LoadEvent} {s s' : State} {r : ℕ} {c : Load}

/-! ### What a step writes -/

/-- What a step does to the controller: the view appears, with or without a
load that completes at once, a load goes on without touching the controller,
or a load publishes. -/
inductive Writes (s : State) : Event UIEvent LoadEvent → Controller → Prop
  | appear : Writes s (.ui .viewWillAppear) (superViewWillAppear s.ctrl)
  | atOnce (hkids : s.ctrl.kids = []) :
      Writes s (.ui .viewWillAppear)
        (complete s.calls.length .viewWillAppear (superViewWillAppear s.ctrl))
  | progress (r : ℕ) (e : LoadEvent) (hn : e ≠ .notified) : Writes s (.call r e) s.ctrl
  | publish (r : ℕ) (c : Load) (b : Completion) (fetch : Fetch Completion)
      (hc : s.calls[r]? = some c) (hn : c.fetch.next = some (b, fetch)) :
      Writes s (.call r .notified) (complete r b { s.ctrl with
        kids := c.fetch.array, published := s.ctrl.published ++ [(r, c.fetch.array)] })

theorem step_appear (hstep : (machine F).step s (.ui .viewWillAppear) = some s') :
    s' = { ctrl := (viewWillAppear s.calls.length s.ctrl).1
           calls := s.calls ++ (viewWillAppear s.calls.length s.ctrl).2 } := by
  obtain ⟨g, new, hu, rfl⟩ := Machine.step_ui.mp hstep
  rw [show viewWillAppear s.calls.length s.ctrl = (g, new) from Option.some.inj hu]

theorem item_eq (h : Runs F item es s) : s.ctrl.item = some item := (links h s.calls.length).1

theorem step_writes (h : Runs F item es s) (hstep : (machine F).step s e = some s') :
    Writes s e s'.ctrl := by
  have hitem := item_eq h
  rcases e with ⟨⟨⟩⟩ | ⟨r, e⟩
  · rw [step_appear hstep, viewWillAppear_eq hitem]
    by_cases hkids : s.ctrl.kids = []
    · rw [if_pos hkids]
      by_cases hnone : item.kids = none
      · rw [if_pos hnone]
        exact .atOnce hkids
      · rw [if_neg hnone]
        exact .appear
    · rw [if_neg hkids]
      exact .appear
  · obtain ⟨c, c', x, hc, hx, rfl⟩ := Machine.step_call.mp hstep
    cases Load.step_moves hx with
    | notified b fetch hn => exact .publish r c b fetch hc hn
    | _ => exact .progress r _ nofun

/-! ### The layout held -/

/-- The table view holds the layout it would obtain now. -/
def Synced (g : Controller) : Prop := g.table = (reloadTable g).table

theorem reloadTable_synced (g : Controller) : Synced (reloadTable g) := rfl

theorem superViewWillAppear_synced {g : Controller} (h : Synced g) :
    Synced (superViewWillAppear g) := by
  unfold superViewWillAppear
  split
  · exact h
  · exact reloadTable_synced _

theorem complete_synced (r : ℕ) (b : Completion) (g : Controller) : Synced (complete r b g) := by
  rcases b
  exact reloadTable_synced _

theorem synced (h : Runs F item es s) : Synced s.ctrl := by
  refine run_history (P := fun _ s => Synced s.ctrl) (reloadTable_synced _) ?_ h
  intro es s e s' hrun hs hstep
  have hw := step_writes hrun hstep
  generalize s'.ctrl = g at hw ⊢
  rcases hw with _ | ⟨hkids⟩ | ⟨r, e, hn⟩ | ⟨r, c, b, fetch, hc, hn⟩
  · exact superViewWillAppear_synced hs
  · exact complete_synced _ _ _
  · exact hs
  · exact complete_synced _ _ _

/-- The controller has not met a nil item. -/
theorem trap_eq (h : Runs F item es s) : s.ctrl.trap = none := by
  refine run_history (P := fun _ s => s.ctrl.trap = none) rfl ?_ h
  intro es s e s' hrun hs hstep
  have hw := step_writes hrun hstep
  generalize s'.ctrl = g at hw ⊢
  rcases hw with _ | ⟨hkids⟩ | ⟨r, e, hn⟩ | ⟨r, c, b, fetch, hc, hn⟩ <;> simp [hs]

/-- A load that has completed has ended the loading. -/
theorem loadingKids_of_completed (h : Runs F item es s) :
    s.ctrl.completed ≠ [] → s.ctrl.loadingKids = false := by
  refine run_history (P := fun _ s => s.ctrl.completed ≠ [] → s.ctrl.loadingKids = false)
    (fun hne => absurd rfl hne) ?_ h
  intro es s e s' hrun hs hstep
  have hw := step_writes hrun hstep
  generalize s'.ctrl = g at hw ⊢
  rcases hw with _ | ⟨hkids⟩ | ⟨r, e, hn⟩ | ⟨r, c, b, fetch, hc, hn⟩
  · simpa using hs
  · exact fun _ => complete_loadingKids _ _ _
  · exact hs
  · exact fun _ => complete_loadingKids _ _ _

/-! ### The header of the comments -/

/-- The header that announces `n` comments. -/
def announcement : ℕ → String
  | 0 => "No comments"
  | 1 => toString 1 ++ " comment"
  | n => toString n ++ " comments"

theorem titleForHeaderInSection_of_loaded {g : Controller} (h : g.loadingKids = false) :
    titleForHeaderInSection g 1 = .ok (some (announcement g.kids.length)) := by
  simp only [titleForHeaderInSection, h, Bool.false_eq_true, if_false]
  rcases hn : g.kids.length with _ | _ | n
  · rfl
  · rfl
  · rw [if_neg (by omega), if_neg (by omega)]
    rfl

theorem not_mem_toString {n : ℕ} {ch : Char} (h : ch.isDigit = false) :
    ch ∉ (toString n).toList := by
  intro hmem
  rw [Nat.toString_eq_repr, Nat.toList_repr] at hmem
  have hdigit := Nat.isDigit_of_mem_toDigits (by norm_num) (by norm_num) hmem
  rw [h] at hdigit
  simp at hdigit

/-- An announcement does not say "Loading". -/
theorem announcement_not_loading (n : ℕ) : ¬ "Loading".toList <+: (announcement n).toList := by
  intro hpre
  have hmem : 'L' ∈ (announcement n).toList := hpre.subset (by decide)
  rcases n with _ | _ | n
  · revert hmem
    decide
  · revert hmem
    decide
  · simp only [announcement, String.toList_append, List.mem_append] at hmem
    rcases hmem with hmem | hmem
    · exact not_mem_toString (by decide) hmem
    · revert hmem
      decide

/-- The header says how many comments there are. -/
theorem announcement_injective {m n : ℕ} (h : announcement m = announcement n) : m = n := by
  have hmem : ∀ ch : Char, ch ∈ (announcement m).toList ↔ ch ∈ (announcement n).toList := by
    intro ch
    rw [h]
  have hno : ∀ k, 'N' ∉ (announcement (k + 2)).toList := by
    intro k hk
    simp only [announcement, String.toList_append, List.mem_append] at hk
    rcases hk with hk | hk
    · exact not_mem_toString (by decide) hk
    · revert hk
      decide
  have hs : ∀ k, 's' ∈ (announcement (k + 2)).toList := by
    intro k
    simp only [announcement, String.toList_append, List.mem_append]
    exact Or.inr (by decide)
  rcases m with _ | _ | m <;> rcases n with _ | _ | n
  · rfl
  · exact absurd h (by decide)
  · exact absurd ((hmem 'N').mp (by decide)) (hno n)
  · exact absurd h (by decide)
  · rfl
  · exact absurd ((hmem 's').mpr (hs n)) (by decide)
  · exact absurd ((hmem 'N').mpr (by decide)) (hno m)
  · exact absurd ((hmem 's').mp (hs m)) (by decide)
  · have hrepr : toString (m + 2) = toString (n + 2) := by
      simp only [announcement] at h
      exact String.append_left_inj _ |>.mp h
    exact Nat.repr_injective hrepr

/-! ### The rows and the headers -/

theorem titleForHeaderInSection_ok {g : Controller} (hitem : g.item = some item) (i : ℕ) :
    ∃ title, titleForHeaderInSection g i = .ok title := by
  unfold titleForHeaderInSection
  rw [hitem]
  repeat' split
  all_goals first
    | exact ⟨_, rfl⟩
    | contradiction

/-- An index path of a layout the controller gives: the item's row, or a comment's. -/
theorem has_reloadTable {g : Controller} {t : Table} {ip : IndexPath}
    (ht : (reloadTable g).table = some t) (hip : t.Has ip) :
    t.shown = g.kids ∧ (ip.section = 0 ∨ ip.section = 1 ∧ ip.row < g.kids.length) := by
  cases ht
  refine ⟨rfl, ?_⟩
  obtain ⟨hsection, hrow⟩ := Table.reloadData_has.mp hip
  rw [numberOfSections] at hsection
  by_cases h0 : ip.section = 0
  · exact Or.inl h0
  · have h1 : ip.section = 1 := by omega
    rw [h1] at hrow
    exact Or.inr ⟨h1, hrow⟩

/-- The cell of the first section is the item's, -/
theorem cellForRowAt_item {g : Controller} {ip : IndexPath} (hitem : g.item = some item)
    (h0 : ip.section = 0) : cellForRowAt F g ip = .ok (ItemCell.of F item) := by
  simp only [cellForRowAt, h0, hitem]

/-- and those of the second the comments'. -/
theorem cellForRowAt_kid {g : Controller} {ip : IndexPath} {kid : Item}
    (hkid : g.kids[ip.row]? = some kid) (h1 : ip.section = 1) :
    cellForRowAt F g ip = .ok (ItemCell.of F kid) := by
  simp only [cellForRowAt, h1, subscript_eq_ok hkid]
  rfl

/-- **The rows and the header of the comments.** The item is never read as
nil, in a load, for a cell or for a header. At each index path of the layout
held the cell is the item's, or that of a comment which is in bounds and stood
there when the layout was obtained; its labels are the item's or the comment's.
Once a load has completed the header of the comments never says "Loading", and
the number it announces is that of their rows in the layout. -/
theorem comments_index_paths (h : Runs F item es s) :
    (s.ctrl.trap = none ∧ s.ctrl.item = some item ∧
      ∀ i, ∃ title, titleForHeaderInSection s.ctrl i = .ok title) ∧
    (∀ t ip, s.ctrl.table = some t → t.Has ip →
      (ip.section = 0 ∧ cellForRowAt F s.ctrl ip = .ok (ItemCell.of F item) ∧
        (ItemCell.of F item).Shows item) ∨
      (ip.section = 1 ∧ ∃ kid, s.ctrl.kids[ip.row]? = some kid ∧ t.shown[ip.row]? = some kid ∧
        cellForRowAt F s.ctrl ip = .ok (ItemCell.of F kid) ∧ (ItemCell.of F kid).Shows kid)) ∧
    (s.ctrl.completed ≠ [] →
      (∀ title, titleForHeaderInSection s.ctrl 1 = .ok (some title) →
        ¬ "Loading".toList <+: title.toList) ∧
      ∃ t n, s.ctrl.table = some t ∧ t.rows[1]? = some n ∧
        ∀ m, titleForHeaderInSection s.ctrl 1 = .ok (some (announcement m)) ↔ m = n) := by
  have hitem := item_eq h
  have hsynced := synced h
  refine ⟨⟨trap_eq h, hitem, titleForHeaderInSection_ok hitem⟩, fun t ip ht hip => ?_, fun hne => ?_⟩
  · obtain ⟨hshown, h0 | ⟨h1, hlt⟩⟩ := has_reloadTable (hsynced.symm.trans ht) hip
    · exact Or.inl ⟨h0, cellForRowAt_item hitem h0, ItemCell.of_shows F item⟩
    · have hkid : s.ctrl.kids[ip.row]? = some s.ctrl.kids[ip.row] := List.getElem?_eq_getElem hlt
      exact Or.inr ⟨h1, s.ctrl.kids[ip.row], hkid, by rw [hshown, hkid],
        cellForRowAt_kid hkid h1, ItemCell.of_shows F _⟩
  · have htitle := titleForHeaderInSection_of_loaded (loadingKids_of_completed h hne)
    refine ⟨fun title heq => ?_, _, s.ctrl.kids.length, hsynced, rfl, fun m => ?_⟩
    · rw [htitle] at heq
      obtain rfl := Option.some.inj (Except.ok.inj heq)
      exact announcement_not_loading _
    · rw [htitle]
      constructor
      · intro heq
        exact (announcement_injective (Option.some.inj (Except.ok.inj heq))).symm
      · rintro rfl
        rfl

theorem comments_index_paths_two : ∃ s t, Runs .plain { kids := some [7, 8] } twoLoads s ∧
    s.ctrl.completed = [0] ∧ s.ctrl.table = some t ∧ t.Has ⟨1, 0⟩ ∧
    ∀ title, titleForHeaderInSection s.ctrl 1 = .ok (some title) →
      ¬ "Loading".toList <+: title.toList := by
  have hip : Table.Has ⟨[1, 1], [{ id := some 7 }]⟩ ⟨1, 0⟩ := ⟨1, rfl, by decide⟩
  refine ⟨_, _, rfl, rfl, rfl, hip, ?_⟩
  exact ((@comments_index_paths .plain { kids := some [7, 8] } twoLoads _ rfl).2.2 (by decide)).1

/-! ### Where the comments come from -/

/-- The comments are those of some load that has published. -/
theorem kids_published (h : Runs F item es s) :
    s.ctrl.kids = [] ∨ ∃ r, s.ctrl.kids ∈ publishedBy s.ctrl r := by
  refine run_history (P := fun _ (s : State) => s.ctrl.kids = [] ∨
    ∃ r, s.ctrl.kids ∈ publishedBy s.ctrl r) (Or.inl rfl) ?_ h
  intro es s e s' hrun hs hstep
  have hw := step_writes hrun hstep
  generalize s'.ctrl = g at hw ⊢
  cases hw with
  | appear => simpa [publishedBy] using hs
  | atOnce hkids => exact Or.inl (by simp [hkids])
  | progress r e hn => exact hs
  | publish r c b fetch hc hn => exact Or.inr ⟨r, by simp [publishedBy]⟩

/-- Each comment was brought by a response. -/
theorem brought_of_mem_kids (h : Runs F item es s) {kid : Item} (hk : kid ∈ s.ctrl.kids) :
    ∃ r k result, .call r (.itemResponse k result) ∈ es ∧ Network.itemOf F result = some kid := by
  rcases kids_published h with hnil | ⟨r, hpub⟩
  · rw [hnil] at hk
    exact absurd hk List.not_mem_nil
  · obtain ⟨-, hlink⟩ := links h r
    rcases hc : s.calls[r]? with _ | c
    · rw [hc] at hlink
      rw [hlink.2] at hpub
      exact absurd hpub List.not_mem_nil
    · rw [hc] at hlink
      obtain ⟨hinv, -, -, heq⟩ := hlink
      rw [heq, List.mem_map] at hpub
      obtain ⟨-, -, harray⟩ := hpub
      rw [← harray, hinv.fetch.array, settled_eq h hc, List.mem_filterMap] at hk
      obtain ⟨⟨k, o⟩, hmem, rfl⟩ := hk
      obtain ⟨e, he, hresp⟩ := List.mem_filterMap.mp hmem
      rcases e with _ | ⟨k', result⟩ | _ <;> simp only [response, reduceCtorEq] at hresp
      obtain ⟨-, hitem⟩ := Prod.mk.inj (Option.some.inj hresp)
      exact ⟨r, k', result, mem_eventsOf.mp he, hitem⟩

end DetailViewController
end Workshop2018
