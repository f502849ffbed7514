/-
# What the app asks for

The requests that the screens send and the responses they wait for, as the
app's books: a step of the app sends requests that were not outstanding, by
the reload or load that sends them and their position in it, and takes in a
response only to one that is (`lawful`). A response to a request that is
outstanding is always taken in, whatever it is. What has been sent, answered or
not, is what the steps have sent (`App.sent_iff`), none of it twice from one
place (`App.asks_fresh`).

Key definitions: `ListViewController.Slot`, `App.Place`, `App.Outstanding`, `App.client`, `App.Sent`.
Key theorems: `ListViewController.Call.books`, `DetailViewController.Load.books`, `App.lawful`,
`App.sent_iff`, `App.asks_fresh`.
-/
import Workshop2018.Lib.Service
import Workshop2018.Network.Adapters
import Workshop2018.Screens.App

namespace Workshop2018

open Concurrent

/-! ### The requests of a reload -/

namespace ListViewController

/-- A request of a reload: that for the ids, or the one at a position for an item. -/
inductive Slot
  | ids
  | item (k : ℕ)
  deriving DecidableEq, Repr

def Call.Outstanding (c : Call) : Slot → Prop
  | .ids => c.stage = .asking
  | .item k => k ∈ c.fetch.requests

/-- The requests that a step of a reload sends: the block on the global queue
that for the ids, another step those it issues. -/
def Call.asks (F : Foundation) (c : Call) : CallEvent → List (Slot × Network.Request)
  | .background => [(.ids, Network.idsRequest)]
  | e =>
    match c.step F e with
    | some (c', _) => (FanIn.sentSince c.fetch c'.fetch).map fun p => (.item p.1, p.2)
    | none => []

def answer : Slot → Result Json → CallEvent
  | .ids, result => .idsResponse result
  | .item k, result => .itemResponse k result

def answered : CallEvent → Option (Slot × Result Json)
  | .idsResponse result => some (.ids, result)
  | .itemResponse k result => some (.item k, result)
  | _ => none

theorem answered_iff {e : CallEvent} {slot : Slot} {result : Result Json} :
    answered e = some (slot, result) ↔ e = answer slot result := by
  rcases e with _ | result' | ⟨k, result'⟩ | _ | _ <;> rcases slot with _ | k' <;>
    simp [answered, answer]

variable {F : Foundation} {c c' : Call} {e : CallEvent} {x : Effect}

theorem Call.asks_eq (hs : c.step F e = some (c', x)) (hne : e ≠ .background) :
    c.asks F e = (FanIn.sentSince c.fetch c'.fetch).map fun p => (.item p.1, p.2) := by
  cases e with
  | background => exact absurd rfl hne
  | _ => simp only [asks, hs]

theorem Call.asks_names (hs : c.step F e = some (c', x)) (hne : e ≠ .background) :
    (c.asks F e).map Prod.fst = ((FanIn.sentSince c.fetch c'.fetch).map Prod.fst).map .item := by
  rw [Call.asks_eq hs hne, List.map_map, List.map_map]
  rfl

theorem item_injective : Function.Injective Slot.item := fun _ _ h => Slot.item.inj h

/-- A step that leaves the stage alone has the books of its fan-in. -/
theorem Call.books_item {asks : List ℕ} {answered : Option ℕ} (hstage : c'.stage = c.stage)
    (h : Books (· ∈ c.fetch.requests) (· ∈ c'.fetch.requests) asks answered) :
    Books c.Outstanding c'.Outstanding (asks.map .item) (answered.map .item) := by
  refine h.lift item_injective (fun _ => Iff.rfl) (fun _ => Iff.rfl) ?_
  rintro (_ | k) hne
  · simp only [Outstanding, hstage]
  · exact absurd rfl (hne k)

/-- A step that takes in the ids also has those of its fan-in. -/
theorem Call.books_ids {asks : List ℕ} (hstage : c.stage = .asking) (hstage' : c'.stage ≠ .asking)
    (h : Books (· ∈ c.fetch.requests) (· ∈ c'.fetch.requests) asks none) :
    Books c.Outstanding c'.Outstanding (asks.map .item) (some .ids) := by
  refine ⟨(List.nodup_map_iff item_injective).mpr h.nodup, fun slot hslot => ?_, fun slot hslot => ?_,
    fun slot => ?_⟩
  · obtain ⟨k, hk, rfl⟩ := List.mem_map.mp hslot
    exact h.fresh k hk
  · obtain rfl := Option.some.inj hslot
    exact hstage
  · rcases slot with _ | k
    · simp [Outstanding, hstage']
    · have hafter := h.after k
      simp only [Outstanding, List.mem_map_of_injective item_injective]
      simpa using hafter

/-- **A reload keeps its books.** -/
theorem Call.books (h : c.Inv) (hs : c.step F e = some (c', x)) :
    Books c.Outstanding c'.Outstanding ((c.asks F e).map Prod.fst) ((answered e).map Prod.fst) := by
  have hsend := Call.asks_names hs
  cases Call.step_moves hs with
  | background hd =>
    refine ⟨List.nodup_singleton _, fun slot hslot => ?_, by simp [answered], fun slot => ?_⟩
    · obtain rfl := List.mem_singleton.mp hslot
      simp [Outstanding, hd]
    · rcases slot with _ | k
      · simp [Outstanding, asks]
      · simp [Outstanding, asks, answered]
  | idsSuccess result ids ha hids =>
    have hstage := h.stage
    simp only [StageOk, ha] at hstage
    have hissued : (c.success ids).fetch.issued = c.fetch.issued ++ ids.map Network.itemRequest := by
      rw [hstage.1]
      exact FanIn.issueAll_issued _ _
    have hreq : (c.success ids).fetch.requests = c.fetch.requests ++
        List.range' c.fetch.issued.length (ids.map Network.itemRequest).length := by
      rw [hstage.1]
      exact FanIn.issueAll_requests _ _
    rw [hsend (by simp)]
    exact Call.books_ids ha (by simp [Call.success]) (h.fetch.books_sent hissued hreq)
  | idsFailure result error ha hids =>
    rw [hsend (by simp)]
    exact Call.books_ids ha (by simp [Call.failure]) (h.fetch.books_same rfl rfl)
  | itemResponse k result hk =>
    have hbooks := h.fetch.books_settle hk (Network.itemOf F result)
    have hstage : ({ c with fetch := c.fetch.settle k (Network.itemOf F result) } : Call).stage =
      c.stage := rfl
    rw [hsend (by simp)]
    exact Call.books_item hstage hbooks
  | notified b fetch hn =>
    obtain ⟨bs, -, rfl⟩ := FanIn.next_eq_some.mp hn
    rw [hsend (by simp)]
    refine Call.books_item ?_ (h.fetch.books_same ?_ ?_)
    · rfl
    · rfl
    · rfl
  | failed error alerts ha =>
    rw [hsend (by simp)]
    refine Call.books_item ?_ (h.fetch.books_same ?_ ?_)
    · rfl
    · rfl
    · rfl

/-- A response to an outstanding request is taken in. -/
theorem Call.enabled {slot : Slot} (h : c.Outstanding slot) (result : Result Json) :
    c.step F (answer slot result) ≠ none := by
  rcases slot with _ | k
  · simp only [Outstanding] at h
    simp [answer, step, h]
  · have hresponse : Fetch.response F c.fetch k result = some (c.fetch.settle k (Network.itemOf F result)) :=
      Fetch.response_eq_some.mpr ⟨h, rfl⟩
    simp [answer, step, hresponse]

/-- What a reload has sent stays sent. -/
theorem Call.issued_prefix (h : c.Inv) (hs : c.step F e = some (c', x)) :
    c.fetch.issued <+: c'.fetch.issued := by
  cases Call.step_moves hs with
  | idsSuccess result ids ha hids =>
    have hstage := h.stage
    simp only [StageOk, ha] at hstage
    rw [hstage.1]
    exact List.nil_prefix
  | itemResponse k result hk =>
    rw [FanIn.settle_eq]
  | notified b fetch hn =>
    obtain ⟨bs, -, rfl⟩ := FanIn.next_eq_some.mp hn
    exact List.prefix_rfl
  | _ => exact List.prefix_rfl

/-- The request was sent at the slot. -/
def Call.Sent (c : Call) : Slot → Network.Request → Prop
  | .ids, request => c.stage ≠ .dispatched ∧ request = Network.idsRequest
  | .item k, request => c.fetch.issued[k]? = some request

variable {slot : Slot} {request : Network.Request}

/-- What a reload has sent after a step it had sent before, or sends in the step. -/
theorem Call.sent_iff (h : c.Inv) (hs : c.step F e = some (c', x)) :
    c'.Sent slot request ↔ c.Sent slot request ∨ (slot, request) ∈ c.asks F e := by
  by_cases hb : e = .background
  · subst hb
    cases Call.step_moves hs with
    | background hd =>
      rcases slot with _ | k
      · simp [Sent, asks, hd]
      · simp [Sent, asks]
  · rw [Call.asks_eq hs hb]
    rcases slot with _ | k
    · have hstage : c'.stage ≠ .dispatched ↔ c.stage ≠ .dispatched := by
        cases Call.step_moves hs with
        | background hd => exact absurd rfl hb
        | idsSuccess result ids ha hids => simp [Call.success, ha]
        | idsFailure result error ha hids => simp [Call.failure, ha]
        | _ => exact Iff.rfl
      simp [Sent, hstage]
    · refine (FanIn.getElem?_issued (Call.issued_prefix h hs)).trans (or_congr_right ?_)
      simp

/-- A reload that has sent a request for an item is past its ids. -/
theorem Call.Inv.fetching_of_issued (h : c.Inv) (hne : c.fetch.issued ≠ []) :
    ∃ ids, c.stage = .fetching ids ∧ c.fetch.issued = ids.map Network.itemRequest := by
  have hstage := h.stage
  cases hst : c.stage with
  | fetching ids =>
    simp only [StageOk, hst] at hstage
    exact ⟨ids, rfl, hstage.1⟩
  | _ =>
    simp only [StageOk, hst] at hstage
    rw [hstage.1] at hne
    exact absurd rfl hne

/-- What a reload sends beyond its ids request are requests for items. -/
theorem Call.Inv.sent_item (h : c.Inv) {k : ℕ} (hsent : c.Sent (.item k) request) :
    ∃ id, request = Network.itemRequest id := by
  have hmem : request ∈ c.fetch.issued := List.mem_of_getElem? hsent
  obtain ⟨ids, -, hissued⟩ := h.fetching_of_issued (List.ne_nil_of_mem hmem)
  rw [hissued, List.mem_map] at hmem
  obtain ⟨id, -, rfl⟩ := hmem
  exact ⟨id, rfl⟩

/-- It sends nothing at a slot for the second time. -/
theorem Call.asks_fresh (h : c.Inv) (hmem : (slot, request) ∈ c.asks F e) (request' : Network.Request)
    (hs : c.step F e = some (c', x)) : ¬ c.Sent slot request' := by
  by_cases hb : e = .background
  · subst hb
    obtain ⟨rfl, -⟩ := Prod.mk.inj (List.mem_singleton.mp hmem)
    cases Call.step_moves hs with
    | background hd => exact fun hsent => hsent.1 hd
  · rw [Call.asks_eq hs hb] at hmem
    obtain ⟨⟨k, i⟩, hk, heq⟩ := List.mem_map.mp hmem
    obtain ⟨rfl, rfl⟩ := Prod.mk.inj heq
    have hle := ((FanIn.mem_sentSince (Call.issued_prefix h hs)).mp hk).1
    intro hsent
    have hlt := (List.getElem?_eq_some_iff.mp hsent).1
    omega

end ListViewController

/-! ### The requests of a load -/

namespace DetailViewController

def Load.Outstanding (c : Load) (k : ℕ) : Prop := k ∈ c.fetch.requests

/-- The requests that a step of a load sends. -/
def Load.asks (F : Foundation) (c : Load) (e : LoadEvent) : List (ℕ × Network.Request) :=
  match c.step F e with
  | some (c', _) => FanIn.sentSince c.fetch c'.fetch
  | none => []

def answered : LoadEvent → Option (ℕ × Result Json)
  | .itemResponse k result => some (k, result)
  | _ => none

theorem answered_iff {e : LoadEvent} {k : ℕ} {result : Result Json} :
    answered e = some (k, result) ↔ e = .itemResponse k result := by
  rcases e with _ | ⟨k', result'⟩ | _ <;> simp [answered]

variable {F : Foundation} {c c' : Load} {e : LoadEvent} {x : Effect}

theorem Load.asks_eq (hs : c.step F e = some (c', x)) :
    c.asks F e = FanIn.sentSince c.fetch c'.fetch := by
  simp only [asks, hs]

/-- **A load keeps its books.** -/
theorem Load.books (h : c.Inv) (hs : c.step F e = some (c', x)) :
    Books c.Outstanding c'.Outstanding ((c.asks F e).map Prod.fst) ((answered e).map Prod.fst) := by
  rw [Load.asks_eq hs]
  cases Load.step_moves hs with
  | enter id ids ht => exact h.fetch.books_same rfl rfl
  | request id ids ht => exact h.fetch.books_sent rfl rfl
  | notify ht => exact h.fetch.books_same rfl rfl
  | itemResponse k result hk => exact h.fetch.books_settle hk _
  | notified b fetch hn =>
    obtain ⟨bs, -, rfl⟩ := FanIn.next_eq_some.mp hn
    exact h.fetch.books_same rfl rfl

theorem Load.enabled {k : ℕ} (h : c.Outstanding k) (result : Result Json) :
    c.step F (.itemResponse k result) ≠ none := by
  have hresponse : Fetch.response F c.fetch k result = some (c.fetch.settle k (Network.itemOf F result)) :=
    Fetch.response_eq_some.mpr ⟨h, rfl⟩
  simp [step, hresponse]

/-- What a load has sent stays sent. -/
theorem Load.issued_prefix (hs : c.step F e = some (c', x)) : c.fetch.issued <+: c'.fetch.issued := by
  cases Load.step_moves hs with
  | request id ids ht => exact List.prefix_append _ _
  | itemResponse k result hk => rw [FanIn.settle_eq]
  | notified b fetch hn =>
    obtain ⟨bs, -, rfl⟩ := FanIn.next_eq_some.mp hn
    exact List.prefix_rfl
  | _ => exact List.prefix_rfl

/-- The request was sent at the position. -/
def Load.Sent (c : Load) (k : ℕ) (request : Network.Request) : Prop := c.fetch.issued[k]? = some request

variable {k : ℕ} {request : Network.Request}

theorem Load.sent_iff (hs : c.step F e = some (c', x)) :
    c'.Sent k request ↔ c.Sent k request ∨ (k, request) ∈ c.asks F e := by
  rw [Load.asks_eq hs]
  exact FanIn.getElem?_issued (Load.issued_prefix hs)

/-- What a load sends are requests for the item's kids, each at its position. -/
theorem Load.Inv.sent_kid (h : c.Inv) (hsent : c.Sent k request) :
    ∃ kids id, c.kids = some kids ∧ kids[k]? = some id ∧ request = Network.itemRequest id := by
  have hk : c.fetch.issued[k]? = some request := hsent
  rcases hkids : c.kids with _ | kids
  · rw [(h.idle hkids).2] at hk
    cases hk
  · have hok := h.thread kids hkids
    -- those sent are the first of all
    have hprefix : c.fetch.issued <+: kids.map Network.itemRequest := by
      rcases ht : c.thread with _ | t
      · simp only [ThreadOk, ht] at hok
        exact ⟨[], by rw [hok.1, List.append_nil]⟩
      · simp only [ThreadOk, ht] at hok
        exact ⟨_, hok.1.symm⟩
    obtain ⟨hlt, hget⟩ := List.getElem?_eq_some_iff.mp hk
    have hall := List.prefix_iff_getElem?.mp hprefix k hlt
    rw [hget, List.getElem?_map, Option.map_eq_some_iff] at hall
    obtain ⟨id, hid, hrequest⟩ := hall
    exact ⟨kids, id, rfl, hid, hrequest.symm⟩

/-- It sends nothing at a position for the second time. -/
theorem Load.asks_fresh (hmem : (k, request) ∈ c.asks F e) (request' : Network.Request)
    (hs : c.step F e = some (c', x)) : ¬ c.Sent k request' := by
  rw [Load.asks_eq hs] at hmem
  have hle := ((FanIn.mem_sentSince (Load.issued_prefix hs)).mp hmem).1
  intro hsent
  have hlt := (List.getElem?_eq_some_iff.mp hsent).1
  omega

end DetailViewController

/-! ### The requests of the app -/

namespace App

/-- Where a request of the app is: at a slot of a reload of the list, or at
position `k` of load `r` of item screen `d`. -/
inductive Place
  | list (r : ℕ) (slot : ListViewController.Slot)
  | screen (d r k : ℕ)
  deriving DecidableEq, Repr

/-- An item screen waits for the response to the request of a load at a position. -/
def OutstandingIn (screen : DetailViewController.State) : ℕ × ℕ → Prop :=
  anyOf DetailViewController.Load.Outstanding screen.calls

/-- The app waits for the response to the request at a place. -/
def Outstanding (s : State) : Place → Prop
  | .list r slot => anyOf ListViewController.Call.Outstanding s.ctrl.list.calls (r, slot)
  | .screen d r k => anyOf OutstandingIn s.calls (d, r, k)

/-- The requests that a step of the app sends. -/
def asks (F : Foundation) (s : State) : Event UIEvent ScreenEvent → List (Place × Network.Request)
  | .ui (.list e) =>
    (asksIn (ListViewController.Call.asks F) s.ctrl.list.calls e).map fun p => (.list p.1.1 p.1.2, p.2)
  | .ui (.select _) => []
  | .call d e =>
    (s.calls[d]?.elim [] fun screen => asksIn (DetailViewController.Load.asks F) screen.calls e).map
      fun p => (.screen d p.1.1 p.1.2, p.2)

def answer : Place → Result Json → Event UIEvent ScreenEvent
  | .list r slot, result => .ui (.list (.call r (ListViewController.answer slot result)))
  | .screen d r k, result => .call d (.call r (.itemResponse k result))

def answered : Event UIEvent ScreenEvent → Option (Place × Result Json)
  | .ui (.list e) =>
    (answeredIn ListViewController.answered e).map fun p => (.list p.1.1 p.1.2, p.2)
  | .ui (.select _) => none
  | .call d e => (answeredIn DetailViewController.answered e).map fun p => (.screen d p.1.1 p.1.2, p.2)

/-- The app, as what asks for the responses to its requests. -/
def client (F : Foundation) :
    Client State (Event UIEvent ScreenEvent) Place Network.Request (Result Json) where
  step := (machine F).step
  asks := asks F
  answer := answer
  answered := answered

theorem answered_iff {e : Event UIEvent ScreenEvent} {place : Place} {result : Result Json} :
    answered e = some (place, result) ↔ e = answer place result := by
  rcases e with (e | ip) | ⟨d, e⟩
  · rcases place with ⟨r, slot⟩ | ⟨d, r, k⟩
    · have hin : answeredIn ListViewController.answered e = some ((r, slot), result) ↔
          e = .call r (ListViewController.answer slot result) := by
        rw [answeredIn_iff]
        simp [ListViewController.answered_iff]
      have hplace : answered (.ui (.list e)) = some (.list r slot, result) ↔
          answeredIn ListViewController.answered e = some ((r, slot), result) := by
        simp [answered]
      rw [hplace, hin]
      simp [answer]
    · simp [answered, answer]
  · cases place <;> simp [answered, answer]
  · rcases place with ⟨r, slot⟩ | ⟨d', r, k⟩
    · simp [answered, answer]
    · have hin : answeredIn DetailViewController.answered e = some ((r, k), result) ↔
          e = .call r (.itemResponse k result) := by
        rw [answeredIn_iff]
        simp [DetailViewController.answered_iff]
      have hplace : answered (.call d e) = some (.screen d' r k, result) ↔
          d = d' ∧ answeredIn DetailViewController.answered e = some ((r, k), result) := by
        simp only [answered, Option.map_eq_some_iff, Prod.exists, Prod.mk.injEq, Place.screen.injEq]
        constructor
        · rintro ⟨r, k, result, he, ⟨rfl, rfl, rfl⟩, rfl⟩
          exact ⟨rfl, he⟩
        · rintro ⟨rfl, he⟩
          exact ⟨r, k, result, he, ⟨rfl, rfl, rfl⟩, rfl⟩
      rw [hplace, hin]
      simp [answer]

theorem list_injective : Function.Injective fun p : ℕ × ListViewController.Slot =>
    Place.list p.1 p.2 := by
  rintro ⟨r, slot⟩ ⟨r', slot'⟩ heq
  obtain ⟨rfl, rfl⟩ := Place.list.inj heq
  rfl

theorem screen_injective : Function.Injective fun p : ℕ × ℕ × ℕ => Place.screen p.1 p.2.1 p.2.2 := by
  rintro ⟨d, r, k⟩ ⟨d', r', k'⟩ heq
  obtain ⟨rfl, rfl, rfl⟩ := Place.screen.inj heq
  rfl

variable {F : Foundation} {es : List (Event UIEvent ScreenEvent)} {e : Event UIEvent ScreenEvent}
  {s s' : State}

/-- The reloads of the list keep their books. -/
theorem list_books {list list' : ListViewController.State}
    {es : List (Event ListViewController.UIEvent ListViewController.CallEvent)}
    {e : Event ListViewController.UIEvent ListViewController.CallEvent}
    (h : ListViewController.Runs F es list)
    (hstep : (ListViewController.machine F).step list e = some list') :
    Books (anyOf ListViewController.Call.Outstanding list.calls)
      (anyOf ListViewController.Call.Outstanding list'.calls)
      ((asksIn (ListViewController.Call.asks F) list.calls e).map Prod.fst)
      ((answeredIn ListViewController.answered e).map Prod.fst) := by
  refine Machine.books (fun n u g new hu c hc slot => ?_) (fun r c e c' x hc hx => ?_) hstep
  · rcases (ListViewController.ui_eq hu).1 with rfl | ⟨b, rfl⟩
    · exact absurd hc List.not_mem_nil
    · obtain rfl := List.mem_singleton.mp hc
      rcases slot with _ | k <;> simp [ListViewController.Call.Outstanding,
        ListViewController.reloadData]
  · have hlink := ListViewController.links h r
    rw [hc] at hlink
    exact ListViewController.Call.books hlink.1 hx

/-- So do the loads of an item screen. -/
theorem screen_books {screen screen' : DetailViewController.State} {item : Item}
    {es : List (Event DetailViewController.UIEvent DetailViewController.LoadEvent)} {e : ScreenEvent}
    (h : DetailViewController.Runs F item es screen)
    (hstep : (DetailViewController.machine F).step screen e = some screen') :
    Books (OutstandingIn screen) (OutstandingIn screen')
      ((asksIn (DetailViewController.Load.asks F) screen.calls e).map Prod.fst)
      ((answeredIn DetailViewController.answered e).map Prod.fst) := by
  refine Machine.books (fun n u g new hu c hc k => ?_) (fun r c e c' x hc hx => ?_) hstep
  · rcases u
    obtain ⟨item', rfl⟩ := DetailViewController.viewWillAppear_started n screen.ctrl c
      (by rw [Option.some.inj hu]; exact hc)
    exact List.not_mem_nil
  · obtain ⟨-, hlink⟩ := DetailViewController.links h r
    rw [hc] at hlink
    exact DetailViewController.Load.books hlink.1 hx

/-- **The app keeps its books.** -/
theorem books (h : Runs F es s) (hstep : (machine F).step s e = some s') :
    Books (Outstanding s) (Outstanding s') ((asks F s e).map Prod.fst) ((answered e).map Prod.fst) := by
  have hlist := list_runs h
  rcases e with (e | ip) | ⟨d, e⟩
  · obtain ⟨list, hl, rfl⟩ := step_list.mp hstep
    have hbooks : Books (Outstanding s) (Outstanding { ctrl := { s.ctrl with list }, calls := s.calls })
        (((asksIn (ListViewController.Call.asks F) s.ctrl.list.calls e).map Prod.fst).map fun p =>
          .list p.1 p.2)
        (((answeredIn ListViewController.answered e).map Prod.fst).map fun p => .list p.1 p.2) := by
      refine (list_books hlist hl).lift list_injective (fun _ => Iff.rfl) (fun _ => Iff.rfl) ?_
      rintro (⟨r, slot⟩ | ⟨d, r, k⟩) hne
      · exact absurd rfl (hne (r, slot))
      · exact Iff.rfl
    rw [List.map_map, Option.map_map] at hbooks
    simp only [asks, answered, List.map_map, Option.map_map]
    exact hbooks
  · obtain ⟨t, item, -, -, -, rfl⟩ := step_select (ListViewController.synced hlist) hstep
    refine Books.same ?_
    rintro (⟨r, slot⟩ | ⟨d, r, k⟩)
    · exact Iff.rfl
    · refine anyOf_append (fun screen hscreen p hp => ?_) _
      obtain rfl := List.mem_singleton.mp hscreen
      obtain ⟨c, hc, -⟩ := hp
      simp [DetailViewController.prepared] at hc
  · obtain ⟨screen, screen', hd, hx, rfl⟩ := step_screen.mp hstep
    obtain ⟨item, hscreen⟩ := details_runs h hd
    have hset := Books.set hd (screen_books hscreen hx)
    have hbooks : Books (Outstanding s) (Outstanding { ctrl := s.ctrl, calls := s.calls.set d screen' })
        ((((asksIn (DetailViewController.Load.asks F) screen.calls e).map Prod.fst).map (Prod.mk d)).map
          fun p => .screen p.1 p.2.1 p.2.2)
        ((((answeredIn DetailViewController.answered e).map Prod.fst).map (Prod.mk d)).map
          fun p => .screen p.1 p.2.1 p.2.2) := by
      refine hset.lift screen_injective (fun _ => Iff.rfl) (fun _ => Iff.rfl) ?_
      rintro (⟨r, slot⟩ | ⟨d, r, k⟩) hne
      · exact Iff.rfl
      · exact absurd rfl (hne (d, r, k))
    rw [List.map_map, List.map_map, Option.map_map, Option.map_map] at hbooks
    simp only [asks, answered, hd, Option.elim, List.map_map, Option.map_map]
    exact hbooks

/-- A response to a request that is outstanding is taken in. -/
theorem enabled {place : Place} (h : Outstanding s place) (result : Result Json) :
    (machine F).step s (answer place result) ≠ none := by
  rcases place with ⟨r, slot⟩ | ⟨d, r, k⟩
  · obtain ⟨c, hc, hout⟩ := h
    obtain ⟨⟨c', x⟩, hx⟩ := Option.ne_none_iff_exists'.mp
      (ListViewController.Call.enabled (F := F) hout result)
    have hcall : (ListViewController.machine F).call c (ListViewController.answer slot result) =
      some (c', x) := hx
    have hlist := Machine.step_call.mpr ⟨c, c', x, hc, hcall, rfl⟩
    simp [answer, step_list.mpr ⟨_, hlist, rfl⟩]
  · obtain ⟨screen, hd, c, hc, hout⟩ := h
    obtain ⟨⟨c', x⟩, hx⟩ := Option.ne_none_iff_exists'.mp
      (DetailViewController.Load.enabled (F := F) hout result)
    have hcall : (DetailViewController.machine F).call c (.itemResponse k result) = some (c', x) := hx
    have hscreen := Machine.step_call.mpr ⟨c, c', x, hc, hcall, rfl⟩
    simp [answer, step_screen.mpr ⟨screen, _, hd, hscreen, rfl⟩]

/-- **The app asks by the rules.** It sends no request under a name that is
outstanding, takes in no response that is not, and refuses none that is. -/
theorem lawful (F : Foundation) : (client F).Lawful Outstanding ({ ctrl := {} } : State) where
  start place := by
    rcases place with ⟨r, slot⟩ | ⟨d, r, k⟩
    · rintro ⟨c, hc, -⟩
      simp at hc
    · rintro ⟨screen, hd, -⟩
      simp at hd
  answered_iff e place result := answered_iff
  books es s e s' h hstep := books h hstep
  enabled es s place result _ hout := enabled hout result

/-! ### Which request stands where -/

/-- The request was sent from the place. -/
def Sent (s : State) : Place → Network.Request → Prop
  | .list r slot, request => ∃ c, s.ctrl.list.calls[r]? = some c ∧ c.Sent slot request
  | .screen d r k, request =>
    ∃ screen, s.calls[d]? = some screen ∧ ∃ c, screen.calls[r]? = some c ∧ c.Sent k request

variable {place : Place} {request : Network.Request}

/-- What the reloads of the list have sent. -/
theorem list_sent_iff {list list' : ListViewController.State} {r : ℕ} {slot : ListViewController.Slot}
    {es : List (Event ListViewController.UIEvent ListViewController.CallEvent)}
    {e : Event ListViewController.UIEvent ListViewController.CallEvent}
    (h : ListViewController.Runs F es list)
    (hstep : (ListViewController.machine F).step list e = some list') :
    anyOf (fun c slot => ListViewController.Call.Sent c slot request) list'.calls (r, slot) ↔
      anyOf (fun c slot => ListViewController.Call.Sent c slot request) list.calls (r, slot) ∨
        ((r, slot), request) ∈ asksIn (ListViewController.Call.asks F) list.calls e := by
  refine Machine.sent_iff (S := ListViewController.Call.Sent) (fun n u g new hu c hc slot i => ?_)
    (fun r c e c' x hc hx slot i => ?_) hstep
  · rcases (ListViewController.ui_eq hu).1 with rfl | ⟨b, rfl⟩
    · exact absurd hc List.not_mem_nil
    · obtain rfl := List.mem_singleton.mp hc
      rcases slot with _ | k <;> simp [ListViewController.Call.Sent, ListViewController.reloadData]
  · have hlink := ListViewController.links h r
    rw [hc] at hlink
    exact ListViewController.Call.sent_iff hlink.1 hx

/-- What the loads of an item screen have sent. -/
theorem screen_sent_iff {screen screen' : DetailViewController.State} {r k : ℕ} {e : ScreenEvent}
    (hstep : (DetailViewController.machine F).step screen e = some screen') :
    anyOf (fun c k => DetailViewController.Load.Sent c k request) screen'.calls (r, k) ↔
      anyOf (fun c k => DetailViewController.Load.Sent c k request) screen.calls (r, k) ∨
        ((r, k), request) ∈ asksIn (DetailViewController.Load.asks F) screen.calls e := by
  refine Machine.sent_iff (S := DetailViewController.Load.Sent) (fun n u g new hu c hc k i => ?_)
    (fun r c e c' x _ hx k i => DetailViewController.Load.sent_iff hx) hstep
  rcases u
  obtain ⟨item', rfl⟩ := DetailViewController.viewWillAppear_started n screen.ctrl c
    (by rw [Option.some.inj hu]; exact hc)
  simp [DetailViewController.Load.Sent, DetailViewController.started]

/-- **What the app has sent** from a place after a step it had sent before, or
sends in the step. -/
theorem sent_iff (h : Runs F es s) (hstep : (machine F).step s e = some s') :
    Sent s' place request ↔ Sent s place request ∨ (place, request) ∈ asks F s e := by
  rcases e with (e | ip) | ⟨d, e⟩
  · obtain ⟨list, hl, rfl⟩ := step_list.mp hstep
    rcases place with ⟨r, slot⟩ | ⟨d, r, k⟩
    · refine (list_sent_iff (list_runs h) hl).trans (or_congr_right ?_)
      simp [asks]
    · have hnot : (Place.screen d r k, request) ∉ asks F s (.ui (.list e)) := by simp [asks]
      exact (or_iff_left hnot).symm
  · obtain ⟨t, item, -, -, -, rfl⟩ := step_select (ListViewController.synced (list_runs h)) hstep
    have hnot : (place, request) ∉ asks F s (.ui (.select ip)) := List.not_mem_nil
    rw [or_iff_left hnot]
    rcases place with ⟨r, slot⟩ | ⟨d, r, k⟩
    · exact Iff.rfl
    · let sentAt (screen : DetailViewController.State) (k : ℕ) : Prop :=
        ∃ c, screen.calls[r]? = some c ∧ DetailViewController.Load.Sent c k request
      show anyOf sentAt (s.calls ++ [DetailViewController.prepared item]) (d, k) ↔
        anyOf sentAt s.calls (d, k)
      refine anyOf_append ?_ (d, k)
      intro screen hscreen k
      obtain rfl := List.mem_singleton.mp hscreen
      simp [sentAt, DetailViewController.prepared]
  · obtain ⟨screen, screen', hd, hx, rfl⟩ := step_screen.mp hstep
    rcases place with ⟨r, slot⟩ | ⟨d', r, k⟩
    · have hnot : (Place.list r slot, request) ∉ asks F s (.call d e) := by simp [asks]
      exact (or_iff_left hnot).symm
    · have hset : (s.calls.set d screen')[d']? = if d' = d then some screen' else s.calls[d']? :=
        Machine.getElem?_set_call hd d'
      simp only [Sent, hset, asks, hd, Option.elim]
      by_cases hdd : d' = d
      · subst hdd
        simp only [if_true, Option.some.injEq, exists_eq_left', hd]
        refine (screen_sent_iff hx).trans (or_congr_right ?_)
        simp
      · simp [hdd, Ne.symm hdd]

/-- It sends nothing from a place for the second time. -/
theorem asks_fresh (h : Runs F es s) (hstep : (machine F).step s e = some s')
    (hmem : (place, request) ∈ asks F s e) (request' : Network.Request) :
    ¬ Sent s place request' := by
  rcases e with (e | ip) | ⟨d, e⟩
  · obtain ⟨list, hl, rfl⟩ := step_list.mp hstep
    obtain ⟨⟨⟨r, slot⟩, i⟩, hin, heq⟩ := List.mem_map.mp hmem
    obtain ⟨rfl, rfl⟩ := Prod.mk.inj heq
    refine Machine.asks_fresh (S := ListViewController.Call.Sent)
      (fun r c e c' x hc hx slot i hask i' => ?_) hl hin request'
    have hlink := ListViewController.links (list_runs h) r
    rw [hc] at hlink
    exact ListViewController.Call.asks_fresh hlink.1 hask i' hx
  · exact absurd hmem List.not_mem_nil
  · obtain ⟨screen, screen', hd, hx, rfl⟩ := step_screen.mp hstep
    simp only [asks, hd, Option.elim] at hmem
    obtain ⟨⟨⟨r, k⟩, i⟩, hin, heq⟩ := List.mem_map.mp hmem
    obtain ⟨rfl, rfl⟩ := Prod.mk.inj heq
    rintro ⟨screen₀, hd₀, hsent⟩
    obtain rfl := Option.some.inj (hd.symm.trans hd₀)
    exact Machine.asks_fresh (S := DetailViewController.Load.Sent)
      (fun r c e c' x _ hx k i hask i' => DetailViewController.Load.asks_fresh hask i' hx) hx hin
      request' hsent

end App

end Workshop2018
