/-
# Every load of the comments completes once

As for the list, with one difference: the block on the global queue is still
sending requests while the responses to those sent come in, so the count of
the group may return to zero any number of times before `group.notify` is
called. What makes the fan-in safe is where the block stands: the group is
entered before each request is sent, and `group.notify` is called after the
last (`Load.ThreadOk`).

Key definitions: `Thread.left`, `Load.Moves`, `Load.Inv`, `Link`, `responses`.
Key theorems: `Load.step_moves`, `Load.Inv.step`, `links`, `settled_eq`, `load_fan_in`.
-/
import Workshop2018.Screens.Detail

namespace Workshop2018
namespace DetailViewController

open Concurrent

/-! ### What a step of a load does -/

/-- The steps of a load, each with what it needs and what it changes. -/
inductive Load.Moves (F : Foundation) (c : Load) : LoadEvent → Load → Effect → Prop
  | enter (id : ℤ) (ids : List ℤ) (h : c.thread = some (.loop (id :: ids))) :
      Moves F c .background
        { c with thread := some (.request id ids), fetch := c.fetch.enter } .none
  | request (id : ℤ) (ids : List ℤ) (h : c.thread = some (.request id ids)) :
      Moves F c .background
        { c with thread := some (.loop ids), fetch := c.fetch.issue (Network.itemRequest id) } .none
  | notify (h : c.thread = some (.loop [])) :
      Moves F c .background
        { c with thread := none, fetch := c.fetch.notify c.completion } .none
  | itemResponse (k : ℕ) (result : Result Json) (hk : k ∈ c.fetch.requests) :
      Moves F c (.itemResponse k result)
        { c with fetch := c.fetch.settle k (Network.itemOf F result) } .none
  | notified (b : Completion) (fetch : Fetch Completion) (h : c.fetch.next = some (b, fetch)) :
      Moves F c .notified { c with fetch } (.publish c.fetch.array b)

variable {F : Foundation} {c c' : Load} {e : LoadEvent} {x : Effect}

theorem Load.step_moves (h : c.step F e = some (c', x)) : c.Moves F e c' x := by
  rcases e with _ | ⟨k, result⟩ | _
  · simp only [Load.step] at h
    split at h
    · simp at h
    · rename_i id ids ht; cases h; exact .enter id ids ht
    · rename_i id ids ht; cases h; exact .request id ids ht
    · rename_i ht; cases h; exact .notify ht
  · simp only [Load.step] at h
    split at h
    · simp at h
    · rename_i fetch hf
      obtain ⟨hk, rfl⟩ := Fetch.response_eq_some.mp hf
      cases h
      exact .itemResponse k result hk
  · simp only [Load.step] at h
    split at h
    · simp at h
    · rename_i b fetch hn; cases h; exact .notified b fetch hn

/-! ### The invariant of a load -/

/-- The ids whose request the block has still to send. -/
def Thread.left : Thread → List ℤ
  | .loop ids => ids
  | .request id ids => id :: ids

/-- How often the block has entered the group for a request it has not sent. -/
def Thread.ahead : Thread → ℕ
  | .loop _ => 0
  | .request _ _ => 1

/-- Where the block stands in the loop over `kids`: it has sent a request for
each id but those left, each after an `enter`; `group.notify` is called, once,
as the block ends. -/
def Load.ThreadOk (c : Load) (kids : List ℤ) : Prop :=
  match c.thread with
  | some t => kids.map Network.itemRequest = c.fetch.issued ++ t.left.map Network.itemRequest ∧
      c.fetch.entered = c.fetch.issued.length + t.ahead ∧ c.fetch.registered = []
  | none => kids.map Network.itemRequest = c.fetch.issued ∧ c.fetch.registered = [c.completion]

/-- An item without `kids` has no block and no request. -/
structure Load.Inv (c : Load) : Prop where
  fetch : c.fetch.Inv
  idle : c.kids = none → c.thread = none ∧ c.fetch = {}
  thread : ∀ kids, c.kids = some kids → c.ThreadOk kids

theorem Load.inv_of_kids {kids : List ℤ} (hkids : c.kids = some kids) (hf : c.fetch.Inv)
    (ht : c.ThreadOk kids) : c.Inv := by
  refine ⟨hf, fun hnone => ?_, fun kids' hkids' => ?_⟩
  · rw [hkids] at hnone
    simp at hnone
  · obtain rfl : kids = kids' := Option.some.inj (hkids.symm.trans hkids')
    exact ht

/-- A load whose block has not ended has `kids`. -/
theorem Load.Inv.running (h : c.Inv) {t : Thread} (ht : c.thread = some t) :
    ∃ kids, c.kids = some kids ∧
      kids.map Network.itemRequest = c.fetch.issued ++ t.left.map Network.itemRequest ∧
      c.fetch.entered = c.fetch.issued.length + t.ahead ∧ c.fetch.registered = [] := by
  rcases hkids : c.kids with _ | kids
  · rw [(h.idle hkids).1] at ht
    simp at ht
  · have hok := h.thread kids hkids
    simp only [Load.ThreadOk, ht] at hok
    exact ⟨kids, rfl, hok⟩

theorem Load.Inv.step (h : c.Inv) (hs : c.step F e = some (c', x)) : c'.Inv := by
  cases Load.step_moves hs with
  | enter id ids ht =>
    obtain ⟨kids, hkids, hissued, hent, hreg⟩ := h.running ht
    refine Load.inv_of_kids hkids (h.fetch.enter hreg) ⟨hissued, ?_, hreg⟩
    rw [Thread.ahead] at hent
    simp only [FanIn.enter, hent, Thread.ahead]
  | request id ids ht =>
    obtain ⟨kids, hkids, hissued, hent, hreg⟩ := h.running ht
    rw [Thread.ahead] at hent
    have hlt : c.fetch.issued.length < c.fetch.entered := by omega
    refine Load.inv_of_kids hkids (h.fetch.issue _ hlt) ⟨?_, ?_, hreg⟩
    · simpa [FanIn.issue, Thread.left] using hissued
    · simp only [FanIn.issue, hent, Thread.ahead, List.length_append, List.length_singleton]
  | notify ht =>
    obtain ⟨kids, hkids, hissued, hent, hreg⟩ := h.running ht
    rw [Thread.ahead] at hent
    refine Load.inv_of_kids hkids (h.fetch.notify c.completion (by omega) hreg) ⟨?_, ?_⟩
    · simpa [FanIn.notify, Thread.left] using hissued
    · simp [FanIn.notify, hreg]
  | itemResponse k result hk =>
    refine ⟨h.fetch.settle hk _, fun hnone => ?_, fun kids hkids => ?_⟩
    · -- a load without `kids` has no request to answer
      rw [(h.idle hnone).2] at hk
      simp at hk
    · have hok := h.thread kids hkids
      simp only [Load.ThreadOk] at hok ⊢
      rwa [FanIn.settle_eq]
  | notified b fetch hn =>
    obtain ⟨bs, hq, rfl⟩ := FanIn.next_eq_some.mp hn
    refine ⟨h.fetch.next hn, fun hnone => ?_, h.thread⟩
    rw [(h.idle hnone).2] at hq
    simp at hq

theorem Load.step_kids (hs : c.step F e = some (c', x)) : c'.kids = c.kids := by
  cases Load.step_moves hs <;> rfl

/-! ### What the controller remembers of a load -/

section Fields

variable (r : ℕ) (b : Completion) (g : Controller)

@[simp] theorem complete_item : (complete r b g).item = g.item := by cases b; rfl
@[simp] theorem complete_kids : (complete r b g).kids = g.kids := by cases b; rfl
@[simp] theorem complete_published : (complete r b g).published = g.published := by cases b; rfl
@[simp] theorem complete_completed : (complete r b g).completed = g.completed ++ [r] := by
  cases b; rfl
@[simp] theorem complete_loadingKids : (complete r b g).loadingKids = false := by cases b; rfl
@[simp] theorem complete_trap : (complete r b g).trap = g.trap := by cases b; rfl
@[simp] theorem superViewWillAppear_item : (superViewWillAppear g).item = g.item := by
  unfold superViewWillAppear; split <;> rfl
@[simp] theorem superViewWillAppear_kids : (superViewWillAppear g).kids = g.kids := by
  unfold superViewWillAppear; split <;> rfl
@[simp] theorem superViewWillAppear_published :
    (superViewWillAppear g).published = g.published := by
  unfold superViewWillAppear; split <;> rfl
@[simp] theorem superViewWillAppear_completed :
    (superViewWillAppear g).completed = g.completed := by
  unfold superViewWillAppear; split <;> rfl
@[simp] theorem superViewWillAppear_loadingKids :
    (superViewWillAppear g).loadingKids = g.loadingKids := by
  unfold superViewWillAppear; split <;> rfl
@[simp] theorem superViewWillAppear_trap : (superViewWillAppear g).trap = g.trap := by
  unfold superViewWillAppear; split <;> rfl

end Fields

/-- The load an appearance starts for the item. -/
def started (item : Item) : Load where
  completion := .viewWillAppear
  kids := item.kids
  thread := item.kids.map .loop

theorem started_inv (item : Item) : (started item).Inv := by
  rcases hkids : item.kids with _ | kids
  · refine ⟨FanIn.inv_empty, fun _ => ⟨by simp [started, hkids], rfl⟩, fun kids' hkids' => ?_⟩
    rw [show (started item).kids = none from hkids] at hkids'
    simp at hkids'
  · refine Load.inv_of_kids hkids FanIn.inv_empty ?_
    simp [Load.ThreadOk, started, hkids, Thread.left, Thread.ahead]

/-- What an appearance does to a controller that has its item: the table
appears, and a load starts if there are no comments; that of an item without
`kids` completes at once. -/
theorem viewWillAppear_eq {g : Controller} {item : Item} (hitem : g.item = some item) (n : ℕ) :
    viewWillAppear n g =
      if g.kids = [] then
        (if item.kids = none then complete n .viewWillAppear (superViewWillAppear g)
          else superViewWillAppear g, [started item])
      else (superViewWillAppear g, []) := by
  simp only [viewWillAppear, superViewWillAppear_kids, reloadData, superViewWillAppear_item, hitem,
    List.length_eq_zero_iff]
  split
  · rcases hkids : item.kids with _ | kids <;> simp [started, hkids]
  · rfl

/-- The arrays that load `r` has assigned to `kids`. -/
def publishedBy (g : Controller) (r : ℕ) : List (List Item) := entriesOf r g.published

/-- The load of an item without `kids` completes as it starts. -/
def atOnce (item : Item) : ℕ := if item.kids = none then 1 else 0

/-- The controller keeps its item. A load has completed once for each of its
blocks of `group.notify` that has run, or at once, and published its array
once for each; one that has not started has done neither. -/
def Link (item : Item) (g : Controller) (r : ℕ) (o : Option Load) : Prop :=
  g.item = some item ∧
    match o with
    | none => g.completed.count r = 0 ∧ publishedBy g r = []
    | some c => c.Inv ∧ c.kids = item.kids ∧
        g.completed.count r = c.fetch.ran.length + atOnce item ∧
        publishedBy g r = c.fetch.ran.map fun _ => c.fetch.array

variable {item : Item} {es : List (Event UIEvent LoadEvent)} {s s' : State} {r : ℕ}

theorem link_apply_other {g : Controller} {r' : ℕ} {o : Option Load} (x : Effect) (hne : r' ≠ r)
    (h : Link item g r' o) : Link item (apply r x g) r' o := by
  rcases x with _ | ⟨array, b⟩
  · exact h
  · have hitem : (apply r (.publish array b) g).item = g.item := by
      simp [apply]
    have hcount : (apply r (.publish array b) g).completed.count r' = g.completed.count r' := by
      simp [apply, List.count_append, hne.symm]
    have hpub : publishedBy (apply r (.publish array b) g) r' = publishedBy g r' := by
      simp [apply, publishedBy, entriesOf_append_ne hne]
    rcases o with _ | c <;> simpa only [Link, hitem, hcount, hpub] using h

theorem link_step {g : Controller} (h : Link item g r (some c)) (hs : c.step F e = some (c', x)) :
    Link item (apply r x g) r (some c') := by
  obtain ⟨hitem, hinv, hkids, hcount, hpub⟩ := h
  have hinv' := hinv.step hs
  have hkids' : c'.kids = item.kids := (Load.step_kids hs).trans hkids
  cases Load.step_moves hs with
  | enter id ids ht => exact ⟨hitem, hinv', hkids', hcount, hpub⟩
  | request id ids ht => exact ⟨hitem, hinv', hkids', hcount, hpub⟩
  | notify ht => exact ⟨hitem, hinv', hkids', hcount, hpub⟩
  | itemResponse k result hk =>
    -- a block of the group that has run leaves no request to answer
    have hran : c.fetch.ran = [] := by
      by_contra hne
      rw [hinv.fetch.requests_of_submitted (by simp [hne])] at hk
      simp at hk
    have hran' : (c.fetch.settle k (Network.itemOf F result)).ran = [] := by
      rw [FanIn.settle_eq]
      exact hran
    rw [hran] at hcount hpub
    refine ⟨hitem, hinv', hkids', ?_, ?_⟩
    · rw [hran']
      exact hcount
    · rw [hran']
      exact hpub
  | notified b fetch hn =>
    obtain ⟨bs, hq, rfl⟩ := FanIn.next_eq_some.mp hn
    refine ⟨by simp [apply, hitem], hinv', hkids', ?_, ?_⟩
    · simp only [apply, complete_completed, List.count_append, hcount, List.count_singleton_self,
        List.length_append, List.length_singleton]
      omega
    · rw [publishedBy] at hpub
      simp [apply, publishedBy, hpub]

theorem links (h : Runs F item es s) (r : ℕ) : Link item s.ctrl r s.calls[r]? := by
  refine Machine.link_invariant (L := Link item) ?_ ?_ (fun _ _ _ _ _ _ hl hs => link_step hl hs)
    (fun _ _ x _ _ hne hl => link_apply_other x hne hl) ?_ h r
  · rintro n g ⟨⟩ g' new r o hu hr ⟨hitem, ho⟩
    have hu := (viewWillAppear_eq hitem n).symm.trans (Option.some.inj hu)
    split at hu
    · rename_i hnil
      obtain ⟨rfl, rfl⟩ := Prod.mk.inj hu
      rw [List.length_singleton] at hr
      -- the load that may complete now is `n`, not `r`
      have hne : r ≠ n := by omega
      split
      · rcases o with _ | c <;>
          simpa [Link, publishedBy, hitem, List.count_append, hne.symm] using ho
      · rcases o with _ | c <;> simpa [Link, publishedBy, hitem] using ho
    · obtain ⟨rfl, rfl⟩ := Prod.mk.inj hu
      rcases o with _ | c <;> simpa [Link, publishedBy, hitem] using ho
  · rintro n g ⟨⟩ g' new i c hu hc ⟨hitem, hcount, hpub⟩
    have hu := (viewWillAppear_eq hitem n).symm.trans (Option.some.inj hu)
    rw [publishedBy] at hpub
    split at hu
    · obtain ⟨rfl, rfl⟩ := Prod.mk.inj hu
      obtain ⟨rfl, rfl⟩ : i = 0 ∧ c = started item := by
        rcases i with _ | i
        · exact ⟨rfl, (Option.some.inj hc).symm⟩
        · simp at hc
      rw [Nat.add_zero] at hcount hpub ⊢
      have hran : (started item).fetch.ran = [] := rfl
      refine ⟨?_, started_inv item, rfl, ?_, ?_⟩
      · split <;> simp [hitem]
      · by_cases hkids : item.kids = none
        · simp [hkids, hran, atOnce, List.count_append, hcount]
        · simp [hkids, hran, atOnce, hcount]
      · rw [hran]
        split <;> simp [publishedBy, hpub]
    · obtain ⟨rfl, rfl⟩ := Prod.mk.inj hu
      simp at hc
  · exact fun r => ⟨rfl, rfl, rfl⟩

/-! ### A load and its own steps -/

/-- The response that a step of a load takes in, by its position. -/
def response (F : Foundation) : LoadEvent → Option (ℕ × Option Item)
  | .itemResponse k result => some (k, Network.itemOf F result)
  | _ => none

/-- The item responses that load `r` takes in among the events, in their order. -/
def responses (F : Foundation) (r : ℕ) (es : List (Event UIEvent LoadEvent)) :
    List (ℕ × Option Item) :=
  (eventsOf r es).filterMap (response F)

theorem Load.settled_step {l : List LoadEvent} (hs : c.step F e = some (c', x))
    (h : c.fetch.settled = l.filterMap (response F)) :
    c'.fetch.settled = (l ++ [e]).filterMap (response F) := by
  rw [List.filterMap_append, ← h]
  cases Load.step_moves hs with
  | itemResponse k result hk => rw [FanIn.settle_eq]; rfl
  | notified b fetch hn =>
    obtain ⟨bs, hq, rfl⟩ := FanIn.next_eq_some.mp hn
    exact (List.append_nil _).symm
  | _ => exact (List.append_nil _).symm

/-- Every load an appearance starts is that of some item. -/
theorem viewWillAppear_started (n : ℕ) (g : Controller) :
    ∀ c ∈ (viewWillAppear n g).2, ∃ item, c = started item := by
  intro c hc
  rcases hitem : g.item with _ | item
  · simp only [viewWillAppear, reloadData, superViewWillAppear_item, hitem] at hc
    split at hc <;> cases hc
  · rw [viewWillAppear_eq hitem] at hc
    split at hc
    · exact ⟨item, List.mem_singleton.mp hc⟩
    · simp at hc

theorem settled_eq (h : Runs F item es s) (hc : s.calls[r]? = some c) :
    c.fetch.settled = responses F r es := by
  refine Machine.calls_history (H := fun l c => c.fetch.settled = l.filterMap (response F)) ?_
    (fun _ _ _ _ _ hl hs => Load.settled_step hs hl) h hc
  rintro n g ⟨⟩ g' new hu d hd
  obtain ⟨item', rfl⟩ := viewWillAppear_started n g d (by rw [Option.some.inj hu]; exact hd)
  rfl

/-! ### The fan-in of a load -/

/-- Once the block of `group.notify` has been submitted the loop is over and
each of its requests has been answered. -/
theorem Load.Inv.submitted (h : c.Inv) (hne : c.fetch.queued ++ c.fetch.ran ≠ []) :
    c.thread = none ∧ c.fetch.requests = [] ∧
      ∃ kids, c.kids = some kids ∧ c.fetch.issued = kids.map Network.itemRequest := by
  have hreg : c.fetch.registered ≠ [] :=
    h.fetch.registered_ne (by rw [List.append_assoc]; simp_all)
  refine ⟨?_, h.fetch.requests_of_submitted hne, ?_⟩
  · by_contra hsome
    obtain ⟨t, ht⟩ := Option.ne_none_iff_exists'.mp hsome
    obtain ⟨-, -, -, -, hnil⟩ := h.running ht
    exact hreg hnil
  · rcases hkids : c.kids with _ | kids
    · rw [(h.idle hkids).2] at hreg
      exact absurd rfl hreg
    · have hok := h.thread kids hkids
      rcases ht : c.thread with _ | t
      · simp only [Load.ThreadOk, ht] at hok
        exact ⟨kids, rfl, hok.1.symm⟩
      · obtain ⟨-, -, -, -, hnil⟩ := h.running ht
        exact absurd hnil hreg

/-- Its responses are then those of every position of the kids, and its array is theirs. -/
theorem Load.Inv.delivery (h : c.Inv) (hne : c.fetch.queued ++ c.fetch.ran ≠ []) {kids : List ℤ}
    (hk : c.kids = some kids) : c.fetch.issued = kids.map Network.itemRequest ∧
    ∃ d : Delivery kids.length Item, d.entries = c.fetch.settled ∧ d.array = c.fetch.array := by
  obtain ⟨-, hreq, kids', hk', hissued⟩ := h.submitted hne
  obtain rfl : kids' = kids := Option.some.inj (hk'.symm.trans hk)
  have hlen : c.fetch.issued.length = kids'.length := by rw [hissued, List.length_map]
  refine ⟨hissued, ?_⟩
  rw [← hlen]
  exact ⟨h.fetch.delivery hreq, rfl, h.fetch.delivery_array hreq⟩

theorem Load.Inv.ran_length_le (h : c.Inv) : c.fetch.ran.length ≤ 1 := by
  have hle := h.fetch.ran_length_le
  rcases hkids : c.kids with _ | kids
  · simp [(h.idle hkids).2]
  · have hok := h.thread kids hkids
    rcases ht : c.thread with _ | t
    · simp only [Load.ThreadOk, ht] at hok
      rw [hok.2, List.length_singleton] at hle
      exact hle
    · simp only [Load.ThreadOk, ht] at hok
      rw [hok.2.2, List.length_nil] at hle
      omega

theorem Load.Inv.ran_length_of_quiet (h : c.Inv) (hq : c.Quiet) {kids : List ℤ}
    (hkids : c.kids = some kids) : c.fetch.ran.length = 1 := by
  obtain ⟨ht, hreq, hqueued⟩ := hq
  have hok := h.thread kids hkids
  simp only [Load.ThreadOk, ht] at hok
  have hran := (h.fetch.ran_perm hreq hqueued).length_eq
  rw [hran, hok.2, List.length_singleton]

/-- The positions answered so far are those of requests sent, each after an
`enter` of its own. -/
theorem Load.Inv.settled_lt (h : c.Inv) {k : ℕ} (hk : k ∈ c.fetch.settled.map Prod.fst) :
    k < c.fetch.entered := by
  have hmem : k ∈ List.range c.fetch.issued.length :=
    h.fetch.split.mem_iff.mp (List.mem_append_right _ hk)
  have hlt : k < c.fetch.issued.length := List.mem_range.mp hmem
  have hle := h.fetch.issued_le
  omega

/-- With nothing left of a load, it has completed. -/
theorem completed_of_quiet (h : Runs F item es s) (hc : s.calls[r]? = some c)
    (hq : c.Quiet) : s.ctrl.completed.count r = 1 := by
  have hlink := links h r
  rw [hc] at hlink
  obtain ⟨-, hinv, hkids, hcount, -⟩ := hlink
  rw [hcount, atOnce]
  rcases hk : item.kids with _ | kids
  · rw [(hinv.idle (hkids.trans hk)).2]
    rfl
  · rw [hinv.ran_length_of_quiet hq (hkids.trans hk)]
    rfl

/-- What a load publishes is the array of the responses to its requests. -/
theorem published_delivery (h : Runs F item es s) {kids : List ℤ} (hk : item.kids = some kids)
    {array : List Item} (ha : array ∈ publishedBy s.ctrl r) :
    ∃ d : Delivery kids.length Item, d.entries = responses F r es ∧ d.array = array := by
  obtain ⟨-, hlink⟩ := links h r
  rcases hc : s.calls[r]? with _ | c
  · rw [hc] at hlink
    rw [hlink.2] at ha
    simp at ha
  · rw [hc] at hlink
    obtain ⟨hinv, hkids, -, hpub⟩ := hlink
    rw [hpub, List.mem_map] at ha
    obtain ⟨b, hb, rfl⟩ := ha
    obtain ⟨-, d, hd, hda⟩ := hinv.delivery
      (List.append_ne_nil_of_right_ne_nil _ (List.ne_nil_of_mem hb)) (hkids.trans hk)
    exact ⟨d, hd.trans (settled_eq h hc), hda⟩

/-- **The fan-in of a load, its loop among the responses.** The `leave` of
each response comes after the `enter` of its position and happens once, so the
count is never negative. The publishing block is not queued before the loop
has sent a request for each of the item's `kids` and each has been answered.
The completion runs at most once, and has run once when nothing of the load is
left. A load of an item with `kids` publishes once by then, the array of its
responses in the order they came; that of an item without publishes nothing. -/
theorem load_fan_in (h : Runs F item es s) (hc : s.calls[r]? = some c) :
    (0 ≤ c.fetch.group.count ∧ ((responses F r es).map Prod.fst).Nodup ∧
      ∀ k ∈ (responses F r es).map Prod.fst, k < c.fetch.entered) ∧
    (c.fetch.queued ++ c.fetch.ran ≠ [] → c.thread = none ∧ c.fetch.requests = [] ∧
      ∃ kids, item.kids = some kids ∧ c.fetch.issued = kids.map Network.itemRequest ∧
        ((responses F r es).map Prod.fst).Perm (List.range kids.length)) ∧
    s.ctrl.completed.count r ≤ 1 ∧
    (c.Quiet → s.ctrl.completed.count r = 1) ∧
    (item.kids = none → publishedBy s.ctrl r = []) ∧
    ∀ kids, item.kids = some kids →
      (publishedBy s.ctrl r).length ≤ 1 ∧
      (c.Quiet → (publishedBy s.ctrl r).length = 1) ∧
      ∀ array ∈ publishedBy s.ctrl r,
        ∃ d : Delivery kids.length Item, d.entries = responses F r es ∧ d.array = array := by
  have hlink := links h r
  rw [hc] at hlink
  obtain ⟨-, hinv, hkids, hcount, hpub⟩ := hlink
  have hsettled := settled_eq h hc
  have hle := hinv.ran_length_le
  refine ⟨⟨hinv.fetch.count_nonneg, ?_, ?_⟩, fun hne => ?_, ?_, fun hq => ?_, fun hnone => ?_,
    fun kids hk => ⟨?_, fun hq => ?_, fun array ha => ?_⟩⟩
  · rw [← hsettled]
    exact (List.nodup_append.mp (hinv.fetch.split.nodup_iff.mpr List.nodup_range)).2.1
  · rw [← hsettled]
    exact fun k hk => hinv.settled_lt hk
  · obtain ⟨ht, hreq, kids, hk, hissued⟩ := hinv.submitted hne
    obtain ⟨-, d, hd, -⟩ := hinv.delivery hne hk
    refine ⟨ht, hreq, kids, hkids.symm.trans hk, hissued, ?_⟩
    rw [← hsettled, ← hd]
    exact d.perm
  · rw [hcount, atOnce]
    split
    · rename_i hnone
      rw [(hinv.idle (hkids.trans hnone)).2]
      exact le_rfl
    · omega
  · exact completed_of_quiet h hc hq
  · rw [hpub, (hinv.idle (hkids.trans hnone)).2]
    rfl
  · rwa [hpub, List.length_map]
  · rw [hpub, List.length_map]
    exact hinv.ran_length_of_quiet hq (hkids.trans hk)
  · exact published_delivery h hk ha

/-- Two loads of an item with two comments. The first is answered in the
middle of its loop, which takes the count of its group back to zero. -/
def twoLoads : List (Event UIEvent LoadEvent) :=
  [.ui .viewWillAppear, .ui .viewWillAppear, .call 0 .background, .call 0 .background,
    .call 0 (.itemResponse 0 (Network.itemResult { id := some 7 })), .call 1 .background,
    .call 0 .background, .call 0 .background, .call 0 .background,
    .call 0 (.itemResponse 1 (.failure (.alamofire "offline"))), .call 0 .notified]

theorem load_fan_in_two : ∃ s c, Runs .plain { kids := some [7, 8] } twoLoads s ∧
    s.calls[0]? = some c ∧ c.Quiet ∧ s.ctrl.completed.count 0 = 1 ∧
    publishedBy s.ctrl 0 = [[{ id := some 7 }]] := by
  refine ⟨_, _, rfl, rfl, by decide, ?_, rfl⟩
  exact (@load_fan_in .plain _ { kids := some [7, 8] } twoLoads _ 0 rfl rfl).2.2.2.1 (by decide)

end DetailViewController
end Workshop2018
