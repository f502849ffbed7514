/-
# What the list holds

Only the block of `group.notify` assigns `items`, and it assigns what its
reload gathered. So the list holds the array of the reload whose block ran
last, which is not always the reload that started last; and a reload that
brings no item still empties the list, unless its ids request failed.

Key definitions: `Writes`, `notifiedBy`, `NewestWins`, `OwnStep`.
Key theorems: `step_writes`, `items_eq`, `published_order`, `items_of_last_published`,
`failed_reload_items`.
-/
import Workshop2018.Screens.ListCalls

namespace Workshop2018
namespace ListViewController

open Concurrent

/-! ### What a step writes -/

/-- What a step does to the controller: the view appears, the user pulls, a
reload goes on without touching it, a reload publishes, or one presents its error. -/
inductive Writes (F : Foundation) (s : State) : Event UIEvent CallEvent → Controller → Prop
  | appear : Writes F s (.ui .viewWillAppear) (superViewWillAppear s.ctrl)
  | pull : Writes F s (.ui .pullToRefresh) { s.ctrl with refreshing := true }
  | progress (r : ℕ) (e : CallEvent) (hn : e ≠ .notified) (hf : e ≠ .failed) :
      Writes F s (.call r e) s.ctrl
  | publish (r : ℕ) (c : Call) (b : Completion) (fetch : Fetch Completion)
      (hc : s.calls[r]? = some c) (hn : c.fetch.next = some (b, fetch)) :
      Writes F s (.call r .notified) (complete r b { s.ctrl with
        items := c.fetch.array, published := s.ctrl.published ++ [(r, c.fetch.array)] })
  | present (r : ℕ) (c : Call) (error : SwiftError) (alerts : List SwiftError)
      (hc : s.calls[r]? = some c) (ha : c.alerts = error :: alerts) :
      Writes F s (.call r .failed) (complete r c.completion { s.ctrl with
        presented := s.ctrl.presented ++ [alert F error] })

variable {F : Foundation} {es : List (Event UIEvent CallEvent)} {e : Event UIEvent CallEvent}
  {s s' : State} {r : ℕ} {c : Call}

theorem step_appear (h : (machine F).step s (.ui .viewWillAppear) = some s') :
    s' = { ctrl := superViewWillAppear s.ctrl
           calls := s.calls ++ if s.ctrl.items = [] then [reloadData .viewWillAppear] else [] } := by
  obtain ⟨g, new, hu, rfl⟩ := Machine.step_ui.mp h
  obtain ⟨rfl, rfl⟩ := Prod.mk.inj ((viewWillAppear_eq s.ctrl).symm.trans (Option.some.inj hu))
  rfl

theorem step_pull (h : (machine F).step s (.ui .pullToRefresh) = some s') :
    s' = { ctrl := { s.ctrl with refreshing := true }
           calls := s.calls ++ [reloadData .pullToRefresh] } := by
  obtain ⟨g, new, hu, rfl⟩ := Machine.step_ui.mp h
  cases hu
  rfl

theorem step_writes (h : (machine F).step s e = some s') : Writes F s e s'.ctrl := by
  rcases e with u | ⟨r, e⟩
  · rcases u with _ | _
    · rw [step_appear h]
      exact .appear
    · rw [step_pull h]
      exact .pull
  · obtain ⟨c, c', x, hc, hx, rfl⟩ := Machine.step_call.mp h
    cases Call.step_moves hx with
    | background _ => exact .progress r _ nofun nofun
    | idsSuccess _ _ _ _ => exact .progress r _ nofun nofun
    | idsFailure _ _ _ _ => exact .progress r _ nofun nofun
    | itemResponse _ _ _ => exact .progress r _ nofun nofun
    | notified b fetch hn => exact .publish r c b fetch hc hn
    | failed error alerts ha => exact .present r c error alerts hc ha

/-! ### The last array published -/

/-- The reloads whose block of `group.notify` ran among the events, in the
order the blocks ran. -/
def notifiedBy (es : List (Event UIEvent CallEvent)) : List ℕ :=
  es.filterMap fun
    | .call r .notified => some r
    | _ => none

/-- The array published last; the empty array `items` starts with if none has been. -/
def lastPublished (g : Controller) : List Item := (g.published.getLast?.map Prod.snd).getD []

theorem items_eq (h : Runs F es s) : s.ctrl.items = lastPublished s.ctrl := by
  refine run_invariant (I := fun s => s.ctrl.items = lastPublished s.ctrl) rfl ?_ h
  intro s e s' hs hstep
  have hw := step_writes hstep
  generalize s'.ctrl = g at hw ⊢
  cases hw with
  | appear => simpa [lastPublished] using hs
  | pull => exact hs
  | progress _ _ _ _ => exact hs
  | publish r c b fetch hc hn => simp [lastPublished]
  | present r c error alerts hc ha => simpa [lastPublished] using hs

theorem published_order (h : Runs F es s) : s.ctrl.published.map Prod.fst = notifiedBy es := by
  refine run_history (P := fun es s => s.ctrl.published.map Prod.fst = notifiedBy es) rfl ?_ h
  intro es s e s' _ hs hstep
  have hw := step_writes hstep
  have happ : notifiedBy (es ++ [e]) = notifiedBy es ++ notifiedBy [e] := List.filterMap_append
  rw [happ, ← hs]
  generalize s'.ctrl = g at hw ⊢
  cases hw with
  | appear => simp [notifiedBy]
  | pull => simp [notifiedBy]
  | progress r e hn hf =>
    have hnone : notifiedBy [.call r e] = [] := by cases e <;> simp_all [notifiedBy]
    rw [hnone, List.append_nil]
  | publish r c b fetch hc hn => simp [notifiedBy]
  | present r c error alerts hc ha => simp [notifiedBy]

/-- What has been published stays published. -/
theorem published_prefix {es : List (Event UIEvent CallEvent)}
    (h : run (machine F).step s es = some s') : s.ctrl.published <+: s'.ctrl.published := by
  refine run_invariant (I := fun t => s.ctrl.published <+: t.ctrl.published) List.prefix_rfl ?_ h
  intro t e u ht hstep
  have hw := step_writes hstep
  generalize u.ctrl = g at hw ⊢
  cases hw with
  | appear => simpa using ht
  | pull => exact ht
  | progress _ _ _ _ => exact ht
  | publish r c b fetch hc hn =>
    rw [complete_published]
    exact ht.trans (List.prefix_append _ _)
  | present r c error alerts hc ha => simpa using ht

/-- No reload publishes twice. -/
theorem published_nodup (h : Runs F es s) : (s.ctrl.published.map Prod.fst).Nodup := by
  rw [List.nodup_iff_count_le_one]
  intro r
  have hlen : (s.ctrl.published.map Prod.fst).count r = (publishedBy s.ctrl r).length :=
    count_map_fst
  have hlink := links h r
  cases hc : s.calls[r]? with
  | none =>
    rw [hc] at hlink
    simp [hlen, hlink.2]
  | some c =>
    rw [hc] at hlink
    obtain ⟨hinv, -, hpub⟩ := hlink
    have := hinv.ran_length_le
    rw [hlen, hpub, List.length_map]
    omega

/-- `items` is what the most recently started of the reloads that have
published has published. -/
def NewestWins (g : Controller) : Prop :=
  ∀ p ∈ g.published, (∀ q ∈ g.published, q.1 ≤ p.1) → g.items = p.2

instance (g : Controller) : Decidable (NewestWins g) := by unfold NewestWins; infer_instance

/-- **The last to publish wins.** Each reload publishes at most once, in the
order the blocks run. `items` is empty until one has, and is then the array of
the reload whose block ran last; where no reload that has published started
after that one, the newest reload wins. -/
theorem items_of_last_published (h : Runs F es s) :
    s.ctrl.published.map Prod.fst = notifiedBy es ∧ (notifiedBy es).Nodup ∧
    (s.ctrl.published = [] → s.ctrl.items = []) ∧
    ∀ p, s.ctrl.published.getLast? = some p → s.ctrl.items = p.2 ∧
      ((∀ q ∈ s.ctrl.published, q.1 ≤ p.1) → NewestWins s.ctrl) := by
  have hitems := items_eq h
  have hnodup := published_nodup h
  refine ⟨published_order h, published_order h ▸ hnodup, fun hnil => ?_, fun p hp => ?_⟩
  · simp [hitems, lastPublished, hnil]
  · have hlast : s.ctrl.items = p.2 := by simp [hitems, lastPublished, hp]
    refine ⟨hlast, fun hmax q hq hq' => ?_⟩
    have hpmem : p ∈ s.ctrl.published := List.mem_of_getLast? hp
    -- both are the newest, and no reload has published twice
    have hpq : p = q := List.inj_on_of_nodup_map hnodup hpmem hq (le_antisymm (hq' p hpmem) (hmax q hq))
    rw [hlast, hpq]

/-- Two reloads in flight: the appearance's brings two items, the second one
first, and then the pull's brings one of them only. -/
def refreshed : List (Event UIEvent CallEvent) :=
  [.ui .viewWillAppear, .ui .pullToRefresh, .call 0 .background, .call 1 .background,
    .call 0 (.idsResponse (Network.idsResult [1, 2])), .call 1 (.idsResponse (Network.idsResult [2])),
    .call 0 (.itemResponse 1 (Network.itemResult { id := some 2 })),
    .call 1 (.itemResponse 0 (Network.itemResult { id := some 2 })),
    .call 0 (.itemResponse 0 (Network.itemResult { id := some 1 })), .call 0 .notified,
    .call 1 .notified]

theorem items_of_last_published_refreshed : ∃ s, Runs .plain refreshed s ∧
    s.ctrl.published = [(0, [{ id := some 2 }, { id := some 1 }]), (1, [{ id := some 2 }])] ∧
    s.ctrl.items = [{ id := some 2 }] ∧ NewestWins s.ctrl := by
  have hlast := (@items_of_last_published .plain refreshed _ rfl).2.2.2 _ rfl
  exact ⟨_, rfl, rfl, hlast.1, hlast.2 (by decide)⟩

/-- The first load is answered after the reload the user pulled: its older
array takes the newer one's place. -/
theorem items_older_reload : ∃ s, Runs .plain
    [.ui .viewWillAppear, .ui .pullToRefresh, .call 0 .background, .call 1 .background,
      .call 0 (.idsResponse (Network.idsResult [1])), .call 1 (.idsResponse (Network.idsResult [2])),
      .call 1 (.itemResponse 0 (Network.itemResult { id := some 2 })), .call 1 .notified,
      .call 0 (.itemResponse 0 (Network.itemResult { id := some 1 })), .call 0 .notified] s ∧
    s.ctrl.published = [(1, [{ id := some 2 }]), (0, [{ id := some 1 }])] ∧
    s.ctrl.items = [{ id := some 1 }] ∧ ¬ NewestWins s.ctrl :=
  ⟨_, rfl, rfl, rfl, by decide⟩

/-! ### A reload that brings no item -/

/-- The events that can be a step of reload `r`: its own, and the user's, one
of which starts it. -/
def OwnEvent (r : ℕ) : Event UIEvent CallEvent → Prop
  | .ui _ => True
  | .call r' _ => r' = r

/-- In the run `es`, a step of reload `r` takes `t` to `u` on event `e`. -/
structure OwnStep (F : Foundation) (r : ℕ) (es : List (Event UIEvent CallEvent))
    (e : Event UIEvent CallEvent) (t u : State) : Prop where
  own : OwnEvent r e
  occurs : ∃ pre post, es = pre ++ e :: post ∧ Runs F pre t
  step : (machine F).step t e = some u

variable {t u : State}

/-- A step of reload `r` writes `items` only as the reload publishes, and what
it publishes then it has published in the end. -/
theorem OwnStep.items (ho : OwnStep F r es e t u) (h : Runs F es s) :
    (e ≠ .call r .notified ∧ u.ctrl.items = t.ctrl.items) ∨
    (e = .call r .notified ∧ u.ctrl.items ∈ publishedBy s.ctrl r) := by
  obtain ⟨own, ⟨pre, post, rfl, hpre⟩, hstep⟩ := ho
  obtain ⟨u', hu, -, hpost⟩ := run_split h hpre
  obtain rfl : u = u' := Option.some.inj (hstep.symm.trans hu)
  have hkept := published_prefix hpost
  have hw := step_writes hstep
  generalize u.ctrl = g at hw hkept ⊢
  cases hw with
  | appear => exact Or.inl ⟨nofun, by simp⟩
  | pull => exact Or.inl ⟨nofun, rfl⟩
  | progress r' e hn hf =>
    refine Or.inl ⟨?_, rfl⟩
    rintro ⟨⟩
    exact hn rfl
  | publish r' c b fetch hc hn =>
    obtain rfl : r' = r := own
    refine Or.inr ⟨rfl, mem_entriesOf.mpr (hkept.subset ?_)⟩
    simp
  | present r' c error alerts hc ha => exact Or.inl ⟨nofun, by simp⟩

/-- A reload whose ids failed never publishes. -/
theorem publishedBy_of_idsFailed (h : Runs F es s) (hc : s.calls[r]? = some c)
    {result : Result Json} (hmem : .call r (.idsResponse result) ∈ es)
    (hids : Network.itemIdsOf result = none) : publishedBy s.ctrl r = [] := by
  have hst : c.stage = .failing := by
    have := (histories h hc).answer result (mem_eventsOf.mpr hmem)
    rwa [hids] at this
  have hlink := links h r
  rw [hc] at hlink
  obtain ⟨hinv, -, hpub⟩ := hlink
  have hstage := hinv.stage
  simp only [Call.StageOk, hst] at hstage
  rw [hpub, hstage.1]
  rfl

/-- **A reload that brings no item.** If its ids request failed, or brought no
list of `Int`, each of its steps leaves `items` as it was. If its ids came and
none of its item requests brought an item, each of its steps does but that of
its block, which leaves `items` empty. Either way its completion runs once. -/
theorem failed_reload_items (h : Runs F es s) (hc : s.calls[r]? = some c) :
    (∀ result, .call r (.idsResponse result) ∈ es → Network.itemIdsOf result = none →
      ∀ e t u, OwnStep F r es e t u → u.ctrl.items = t.ctrl.items) ∧
    (∀ result ids, .call r (.idsResponse result) ∈ es → Network.itemIdsOf result = some ids →
      (∀ p ∈ responses F r es, p.2 = none) → ∀ e t u, OwnStep F r es e t u →
        (e ≠ .call r .notified → u.ctrl.items = t.ctrl.items) ∧
        (e = .call r .notified → u.ctrl.items = [])) ∧
    s.ctrl.completed.count r ≤ 1 ∧ (c.Quiet → s.ctrl.completed.count r = 1) := by
  have hlink := links h r
  rw [hc] at hlink
  obtain ⟨hinv, hcount, hpub⟩ := hlink
  refine ⟨fun result hmem hids e t u ho => ?_, fun result ids hmem hids hnone e t u ho => ?_,
    hcount ▸ hinv.ran_length_le, fun hq => completed_of_quiet h hc hq⟩
  · rcases ho.items h with ⟨-, heq⟩ | ⟨-, hmem'⟩
    · exact heq
    · rw [publishedBy_of_idsFailed h hc hmem hids] at hmem'
      simp at hmem'
  · rcases ho.items h with ⟨hne, heq⟩ | ⟨he, hmem'⟩
    · exact ⟨fun _ => heq, fun he => absurd he hne⟩
    · refine ⟨fun hne => absurd he hne, fun _ => ?_⟩
      rw [hpub, List.mem_map] at hmem'
      obtain ⟨-, -, heq⟩ := hmem'
      rw [← heq, hinv.fetch.array, settled_eq h hc, List.filterMap_eq_nil_iff]
      exact hnone

/-- A list with one item, and two reloads of it: the ids request of the one has
failed, and the item request of the other. -/
def refreshesFail : List (Event UIEvent CallEvent) :=
  [.ui .viewWillAppear, .call 0 .background, .call 0 (.idsResponse (Network.idsResult [1])),
    .call 0 (.itemResponse 0 (Network.itemResult { id := some 1 })), .call 0 .notified,
    .ui .pullToRefresh, .ui .pullToRefresh, .call 1 .background, .call 2 .background,
    .call 2 (.idsResponse (Network.idsResult [1])),
    .call 1 (.idsResponse (.failure (.alamofire "offline"))),
    .call 2 (.itemResponse 0 (.failure (.alamofire "offline")))]

/-- Then the one presents its error. -/
def refreshAlerts : List (Event UIEvent CallEvent) := refreshesFail ++ [.call 1 .failed]

/-- And the block of the other runs. -/
def refreshesEnd : List (Event UIEvent CallEvent) := refreshAlerts ++ [.call 2 .notified]

theorem failed_reload_items_both :
    (∃ t u, OwnStep .plain 1 refreshesEnd (.call 1 .failed) t u ∧
      t.ctrl.items = [{ id := some 1 }] ∧ u.ctrl.items = t.ctrl.items) ∧
    (∃ t u, OwnStep .plain 2 refreshesEnd (.call 2 .notified) t u ∧
      t.ctrl.items = [{ id := some 1 }] ∧ u.ctrl.items = []) ∧
    ∃ s, Runs .plain refreshesEnd s ∧ s.ctrl.completed.count 1 = 1 := by
  obtain ⟨hfailed, -, -, hcount⟩ := @failed_reload_items .plain refreshesEnd _ 1 _ rfl rfl
  obtain ⟨-, hempty, -⟩ := @failed_reload_items .plain refreshesEnd _ 2 _ rfl rfl
  refine ⟨⟨_, _, ⟨rfl, ⟨refreshesFail, [.call 2 .notified], rfl, rfl⟩, rfl⟩, rfl, ?_⟩,
    ⟨_, _, ⟨rfl, ⟨refreshAlerts, [], rfl, rfl⟩, rfl⟩, rfl, ?_⟩, _, rfl, hcount (by decide)⟩
  · refine hfailed (.failure (.alamofire "offline")) ?_ rfl (.call 1 .failed) _ _
      ⟨rfl, ⟨refreshesFail, [.call 2 .notified], rfl, rfl⟩, rfl⟩
    simp [refreshesEnd, refreshAlerts, refreshesFail]
  · refine (hempty (Network.idsResult [1]) [1] ?_ rfl ?_ (.call 2 .notified) _ _
      ⟨rfl, ⟨refreshAlerts, [], rfl, rfl⟩, rfl⟩).2 rfl
    · simp [refreshesEnd, refreshAlerts, refreshesFail]
    · intro p hp
      obtain rfl := List.mem_singleton.mp hp
      rfl

/-- A list with one item, and a reload of it whose one item request has failed. -/
def refreshFails : List (Event UIEvent CallEvent) :=
  [.ui .viewWillAppear, .call 0 .background, .call 0 (.idsResponse (Network.idsResult [1])),
    .call 0 (.itemResponse 0 (Network.itemResult { id := some 1 })), .call 0 .notified,
    .ui .pullToRefresh, .call 1 .background, .call 1 (.idsResponse (Network.idsResult [1])),
    .call 1 (.itemResponse 0 (.failure (.alamofire "offline")))]

/-- The same reload, its block run. -/
def refreshEmpties : List (Event UIEvent CallEvent) := refreshFails ++ [.call 1 .notified]

/-- The ids came, each item request has failed, and the list loses its item. -/
theorem items_failed_refresh : ∃ t u, OwnStep .plain 1 refreshEmpties (.call 1 .notified) t u ∧
    (∃ result, .call 1 (.idsResponse result) ∈ refreshEmpties ∧
      Network.itemIdsOf result = some [1]) ∧
    responses .plain 1 refreshEmpties = [(0, none)] ∧
    t.ctrl.items = [{ id := some 1 }] ∧ u.ctrl.items = [] := by
  refine ⟨_, _, ⟨rfl, ⟨refreshFails, [], rfl, rfl⟩, rfl⟩, ?_, rfl, rfl, rfl⟩
  exact ⟨Network.idsResult [1], by simp [refreshEmpties, refreshFails], rfl⟩

/-! ### Where the items come from -/

/-- A response in the run brought the item. -/
def Brought (F : Foundation) (item : Item) (es : List (Event UIEvent CallEvent)) : Prop :=
  ∃ r k result, .call r (.itemResponse k result) ∈ es ∧ Network.itemOf F result = some item

theorem brought_of_mem_responses {k : ℕ} {item : Item} (h : (k, some item) ∈ responses F r es) :
    Brought F item es := by
  obtain ⟨e, he, hresp⟩ := List.mem_filterMap.mp h
  rcases e with _ | _ | ⟨k', result⟩ | _ | _ <;> simp only [response, reduceCtorEq] at hresp
  obtain ⟨-, hitem⟩ := Prod.mk.inj (Option.some.inj hresp)
  exact ⟨r, k', result, mem_eventsOf.mp he, hitem⟩

/-- Each item of the list was brought by a response. -/
theorem brought_of_mem_items (h : Runs F es s) {item : Item} (hi : item ∈ s.ctrl.items) : Brought F item es := by
  rw [items_eq h, lastPublished] at hi
  rcases hlast : s.ctrl.published.getLast? with _ | ⟨r, array⟩
  · simp [hlast] at hi
  · have hi : item ∈ array := by simpa [hlast] using hi
    have hpub : array ∈ publishedBy s.ctrl r := mem_entriesOf.mpr (List.mem_of_getLast? hlast)
    have hlink := links h r
    rcases hc : s.calls[r]? with _ | c
    · rw [hc] at hlink
      rw [hlink.2] at hpub
      simp at hpub
    · rw [hc] at hlink
      obtain ⟨hinv, -, heq⟩ := hlink
      rw [heq, List.mem_map] at hpub
      obtain ⟨-, -, rfl⟩ := hpub
      rw [hinv.fetch.array, settled_eq h hc, List.mem_filterMap] at hi
      obtain ⟨⟨k, o⟩, hmem, rfl⟩ := hi
      exact brought_of_mem_responses hmem

end ListViewController
end Workshop2018
