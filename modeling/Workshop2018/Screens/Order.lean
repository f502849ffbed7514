/-
# The order of what is shown

Both screens append an item when its response comes, so what they publish is
in the order of the responses. The sequential loader would publish in the
order of the ids: the two arrays have the same items, and are equal when the
items come in the order of their ids (`publishes_in_order_delivered`), but not
in general (`publishes_out_of_order`).

Key definitions: `ListViewController.Publishes`, `DetailViewController.Publishes`.
Key theorems: `publishes_in_order_delivered`.
-/
import Workshop2018.Screens.ListTable
import Workshop2018.Screens.DetailTable

namespace Workshop2018

open Concurrent

variable {F : Foundation} {ids : List ℤ} {requests : List Network.Request} {order : List ℕ}
  {o : ℕ → Option Item} {array : List Item}

/-- The answers `o` to a list of requests, delivered at the positions `order` in turn. -/
def delivered (o : ℕ → Option Item) (order : List ℕ) : List (ℕ × Option Item) :=
  order.map fun k => (k, o k)

/-- In some run of the list screen a reload is given the ids `ids`, sends
`requests`, has them answered by `o` in the order `order`, and its block of
`group.notify` leaves `array` in `items`. -/
def ListViewController.Publishes (F : Foundation) (ids : List ℤ) (requests : List Network.Request)
    (o : ℕ → Option Item) (order : List ℕ) (array : List Item) : Prop :=
  ∃ es s t r c result, ListViewController.Runs F es s ∧
    .call r (.idsResponse result) ∈ es ∧ Network.itemIdsOf result = some ids ∧
    s.calls[r]? = some c ∧ c.fetch.issued = requests ∧
    ListViewController.responses F r es = delivered o order ∧
    (ListViewController.machine F).step s (.call r .notified) = some t ∧ t.ctrl.items = array

/-- In some run of the item screen, of an item with the `kids` `ids`, a load
sends `requests`, has them answered by `o` in the order `order`, and its block
of `group.notify` leaves `array` in `kids`. -/
def DetailViewController.Publishes (F : Foundation) (ids : List ℤ) (requests : List Network.Request)
    (o : ℕ → Option Item) (order : List ℕ) (array : List Item) : Prop :=
  ∃ item es s t r c, item.kids = some ids ∧ DetailViewController.Runs F item es s ∧
    s.calls[r]? = some c ∧ c.fetch.issued = requests ∧
    DetailViewController.responses F r es = delivered o order ∧
    (DetailViewController.machine F).step s (.call r .notified) = some t ∧ t.ctrl.kids = array

/-- The requests of a reload are for its ids, in their order, and the array it
publishes is that of their responses. -/
theorem ListViewController.Publishes.delivery
    (h : ListViewController.Publishes F ids requests o order array) :
    requests = ids.map Network.itemRequest ∧
    ∃ d : Delivery ids.length Item, d.entries = delivered o order ∧ d.array = array := by
  obtain ⟨es, s, t, r, c, result, hrun, hmem, hids, hc, rfl, hresp, hstep, rfl⟩ := h
  have hst := ListViewController.stage_of_ids hrun hc hmem hids
  have hlink := ListViewController.links hrun r
  rw [hc] at hlink
  have hstage := hlink.1.stage
  simp only [ListViewController.Call.StageOk, hst] at hstage
  refine ⟨hstage.1, ?_⟩
  have hw := ListViewController.step_writes hstep
  generalize t.ctrl = g at hw ⊢
  cases hw with
  | progress _ _ hn _ => exact absurd rfl hn
  | publish _ c' b fetch hc' hn =>
    obtain rfl := Option.some.inj (hc.symm.trans hc')
    obtain ⟨bs, hq, -⟩ := FanIn.next_eq_some.mp hn
    obtain ⟨d, hd, harray⟩ := hlink.1.delivery hst (by simp [hq])
    refine ⟨d, ?_, by simpa using harray⟩
    rw [hd, ListViewController.settled_eq hrun hc, hresp]

/-- So it is with a load and its item's kids. -/
theorem DetailViewController.Publishes.delivery
    (h : DetailViewController.Publishes F ids requests o order array) :
    requests = ids.map Network.itemRequest ∧
    ∃ d : Delivery ids.length Item, d.entries = delivered o order ∧ d.array = array := by
  obtain ⟨item, es, s, t, r, c, hk, hrun, hc, rfl, hresp, hstep, rfl⟩ := h
  obtain ⟨-, hlink⟩ := DetailViewController.links hrun r
  rw [hc] at hlink
  obtain ⟨hinv, hkids, -⟩ := hlink
  have hw := DetailViewController.step_writes hrun hstep
  generalize t.ctrl = g at hw ⊢
  cases hw with
  | progress _ _ hn => exact absurd rfl hn
  | publish _ c' b fetch hc' hn =>
    obtain rfl := Option.some.inj (hc.symm.trans hc')
    obtain ⟨bs, hq, -⟩ := FanIn.next_eq_some.mp hn
    obtain ⟨hissued, d, hd, harray⟩ := hinv.delivery (by simp [hq]) (hkids.trans hk)
    refine ⟨hissued, d, ?_, by simpa using harray⟩
    rw [hd, DetailViewController.settled_eq hrun hc, hresp]

/-! ### Against the sequential loader -/

section Delivered

variable {n : ℕ} {d : Delivery n Item}

theorem agrees_of_delivered (h : d.entries = delivered o order) : d.Agrees o := by
  intro e he
  rw [h, delivered, List.mem_map] at he
  obtain ⟨k, -, rfl⟩ := he
  rfl

theorem positions_delivered (h : d.entries = delivered o order) :
    d.entries.map Prod.fst = order := by
  rw [h, delivered, List.map_map]
  exact List.map_id order

/-- The array of a delivery: that of the answers in their order, a permutation
of the sequential loader's, and equal to it where the items come in the order
of their positions. -/
theorem array_of_delivered (h : d.entries = delivered o order) :
    d.array = order.filterMap o ∧ d.array.Perm (sequential o n) ∧
    ((order.filter fun k => (o k).isSome).Pairwise (· < ·) → d.array = sequential o n) := by
  have hagrees := agrees_of_delivered h
  have hpos := positions_delivered h
  refine ⟨?_, Delivery.array_perm hagrees, fun hsorted => ?_⟩
  · rw [Delivery.array_eq hagrees, hpos]
  · refine Delivery.array_eq_sequential hagrees ?_
    rwa [Delivery.successes_eq hagrees, hpos]

end Delivered

/-- One of the two screens does. -/
def Publishes (F : Foundation) (ids : List ℤ) (requests : List Network.Request)
    (o : ℕ → Option Item) (order : List ℕ) (array : List Item) : Prop :=
  ListViewController.Publishes F ids requests o order array ∨
    DetailViewController.Publishes F ids requests o order array

theorem Publishes.delivery (h : Publishes F ids requests o order array) :
    requests = ids.map Network.itemRequest ∧
    ∃ d : Delivery ids.length Item, d.entries = delivered o order ∧ d.array = array := by
  rcases h with h | h
  · exact h.delivery
  · exact h.delivery

/-- **The order of the responses is the order shown.** On either screen, what
a load publishes is the items of its successful positions, those of the
requests for its ids in their order, as they were delivered: a permutation of
the sequential loader's array, and that array where the items are delivered in
the order of the ids. So two loads with the same responses publish the same
items, each in its own order. -/
theorem publishes_in_order_delivered (F : Foundation) (ids : List ℤ) (o : ℕ → Option Item) :
    (∀ requests order array, Publishes F ids requests o order array →
      requests = ids.map Network.itemRequest ∧
      array = order.filterMap o ∧ array.Perm (sequential o ids.length) ∧
      ((order.filter fun k => (o k).isSome).Pairwise (· < ·) →
        array = sequential o ids.length)) ∧
    ∀ requests requests' order order' array array', Publishes F ids requests o order array →
      Publishes F ids requests' o order' array' → array.Perm array' := by
  refine ⟨fun requests order array h => ?_,
    fun requests requests' order order' array array' h h' => ?_⟩
  · obtain ⟨hrequests, d, hd, rfl⟩ := h.delivery
    exact ⟨hrequests, array_of_delivered hd⟩
  · obtain ⟨-, d, hd, rfl⟩ := h.delivery
    obtain ⟨-, d', hd', rfl⟩ := h'.delivery
    exact Delivery.array_perm_array (agrees_of_delivered hd) (agrees_of_delivered hd')

/-! ### Answers out of order -/

/-- The response to the request at position `k`, where `o` answers. -/
def answering (o : ℕ → Option Item) (k : ℕ) : Result Json :=
  match o k with
  | some item => Network.itemResult item
  | none => .failure (.alamofire "offline")

/-- A reload of `ids`, answered by `o` in the order `order`. -/
def listAnswered (ids : List ℤ) (o : ℕ → Option Item) (order : List ℕ) :
    List (Event ListViewController.UIEvent ListViewController.CallEvent) :=
  [.ui .viewWillAppear, .call 0 .background, .call 0 (.idsResponse (Network.idsResult ids))] ++
    order.map fun k => .call 0 (.itemResponse k (answering o k))

/-- A load of the comments `ids`, likewise: its loop runs to the end first. -/
def commentsAnswered (ids : List ℤ) (o : ℕ → Option Item) (order : List ℕ) :
    List (Event DetailViewController.UIEvent DetailViewController.LoadEvent) :=
  .ui .viewWillAppear :: List.replicate (2 * ids.length + 1) (.call 0 .background) ++
    order.map fun k => .call 0 (.itemResponse k (answering o k))

/-- The item at each position. -/
def numbered (k : ℕ) : Option Item := some { id := some (k + 1) }

/-- The second request fails. -/
def oneFails (k : ℕ) : Option Item := if k = 1 then none else numbered k

/-- Three ids, one of whose items fails to come: the list shows the third item
first, the item screen the first. -/
theorem publishes_in_order_delivered_three :
    (∃ requests, ListViewController.Publishes .plain [1, 2, 3] requests oneFails [2, 1, 0]
        [{ id := some 3 }, { id := some 1 }] ∧
      requests = [1, 2, 3].map Network.itemRequest) ∧
    (∃ requests, DetailViewController.Publishes .plain [1, 2, 3] requests oneFails [0, 2, 1]
        [{ id := some 1 }, { id := some 3 }] ∧
      requests = [1, 2, 3].map Network.itemRequest) ∧
    [{ id := some 1 }, { id := some 3 }] = sequential oneFails 3 ∧
    [{ id := some 3 }, { id := some 1 }].Perm [{ id := some 1 }, ({ id := some 3 } : Item)] := by
  have hlist : ListViewController.Publishes .plain [1, 2, 3] _ oneFails [2, 1, 0]
      [{ id := some 3 }, { id := some 1 }] :=
    ⟨listAnswered [1, 2, 3] oneFails [2, 1, 0], _, _, 0, _, Network.idsResult [1, 2, 3], rfl,
      by simp [listAnswered], rfl, rfl, rfl, rfl, rfl, rfl⟩
  have hcomments : DetailViewController.Publishes .plain [1, 2, 3] _ oneFails [0, 2, 1]
      [{ id := some 1 }, { id := some 3 }] :=
    ⟨{ kids := some [1, 2, 3] }, commentsAnswered [1, 2, 3] oneFails [0, 2, 1], _, _, 0, _, rfl,
      rfl, rfl, rfl, rfl, rfl, rfl⟩
  have hall := publishes_in_order_delivered .plain [1, 2, 3] oneFails
  refine ⟨⟨_, hlist, (hall.1 _ _ _ (Or.inl hlist)).1⟩,
    ⟨_, hcomments, (hall.1 _ _ _ (Or.inr hcomments)).1⟩, ?_, ?_⟩
  · exact (hall.1 _ _ _ (Or.inr hcomments)).2.2.2 (by decide)
  · exact hall.2 _ _ _ _ _ _ (Or.inl hlist) (Or.inr hcomments)

/-- Delivered the other way round, the items of 1 and 2 are shown with that of
2 first, on either screen. -/
theorem publishes_out_of_order :
    (∃ requests array, ListViewController.Publishes .plain [1, 2] requests numbered [1, 0] array ∧
      array ≠ sequential numbered 2) ∧
    ∃ requests array, DetailViewController.Publishes .plain [1, 2] requests numbered [1, 0] array ∧
      array ≠ sequential numbered 2 := by
  refine ⟨⟨[1, 2].map Network.itemRequest, [{ id := some 2 }, { id := some 1 }], ?_, by decide⟩,
    [1, 2].map Network.itemRequest, [{ id := some 2 }, { id := some 1 }], ?_, by decide⟩
  · exact ⟨listAnswered [1, 2] numbered [1, 0], _, _, 0, _, Network.idsResult [1, 2], rfl,
      by simp [listAnswered], rfl, rfl, rfl, rfl, rfl, rfl⟩
  · exact ⟨{ kids := some [1, 2] }, commentsAnswered [1, 2] numbered [1, 0], _, _, 0, _, rfl,
      rfl, rfl, rfl, rfl, rfl, rfl⟩

end Workshop2018
