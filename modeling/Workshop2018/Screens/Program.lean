/-
# The app over its requests

The app and the requests it sends, run together: for each request that a step
of the app sends, Alamofire has one of its own, made by the chain of calls of
`Network`, and the result that its handler is given is the response that the
app takes in. Nothing more is assumed of the responses: that they come only to
what is outstanding, and each once, is now what the requests do.

So a run of the app over its requests is a run of the app (`program_answers`),
with one request for each id that it is given or an item has (`requests_sent`),
sent to a URL of its own (`urls_sent`). What it shows can be followed back: an
array that a reload or a load publishes is that of the results given to its
requests (`items_given`, `comments_given`), an item that is shown was decoded
from the data of a response that was accepted (`rows_received`), and an alert
is that of one request for the ids that failed (`alerts_given`). Left alone the
app and its requests come to rest, with every request answered and every
screen showing what it has (`program_settles`).

Key definitions: `step`, `Runs`, `Requested`, `Given`, `Received`, `Quiet`.
Key theorems: `program_answers`, `requests_sent`, `urls_sent`, `items_given`, `comments_given`,
`rows_received`, `program_settles`, `alerts_given`.
-/
import Workshop2018.Network.Adapters
import Workshop2018.Network.Requests
import Workshop2018.Screens.Asking
import Workshop2018.Screens.ListAlerts

namespace Workshop2018
namespace Program

open Concurrent Alamofire Network

/-- The app, and the requests it has sent. -/
abbrev State :=
  Joint App.State (Event App.UIEvent App.ScreenEvent) App.Place Network.Request Sending

abbrev ProgramEvent := JointEvent (Event App.UIEvent App.ScreenEvent) SendingEvent

/-- The app over its requests: `start` says how the request for a path starts. -/
def step (F : Foundation) (jsonObject : Data → Except String Json) (start : String → Start) :
    State → ProgramEvent → Option State :=
  joint (App.client F) (service (sessionManager jsonObject) start)

/-- The events take the app from its launch to `p`. -/
def Runs (F : Foundation) (jsonObject : Data → Except String Json) (start : String → Start)
    (evs : List ProgramEvent) (p : State) : Prop :=
  run (step F jsonObject start) { client := { ctrl := {} } } evs = some p

variable {F : Foundation} {jsonObject : Data → Except String Json} {start : String → Start}
  {evs : List ProgramEvent} {p q : State} {place : App.Place} {request : Network.Request}
  {result : Result Json}

theorem inv (h : Runs F jsonObject start evs p) :
    Joint.Inv (App.client F) App.Outstanding { ctrl := {} }
      (fun s => ∃ st, s.Inv (sessionManager jsonObject) st) Sending.given p :=
  Joint.inv (App.lawful F) (once _ _) h

theorem app_runs (h : Runs F jsonObject start evs p) : App.Runs F p.log p.client :=
  Joint.refines (App.lawful F) (once _ _) h

/-- There is a request from the place, for `request`. -/
def Requested (p : State) (place : App.Place) (request : Network.Request) : Prop :=
  ∃ job ∈ p.jobs, job.name = place ∧ job.what = request

theorem not_sent (place : App.Place) (request : Network.Request) :
    ¬ App.Sent { ctrl := {} } place request := by
  rcases place with ⟨r, slot⟩ | ⟨d, r, k⟩ <;> simp [App.Sent]

/-- There is a request for each that was sent, and for no other. -/
theorem requested_iff (h : Runs F jsonObject start evs p) :
    Requested p place request ↔ App.Sent p.client place request := by
  obtain ⟨hrun, hjobs⟩ := Joint.jobs_for h
  have hasked := Client.mem_asked (c := App.client F) not_sent
    (fun _ _ _ _ hrun hstep _ _ => App.sent_iff hrun hstep) hrun
  rw [← hasked, ← hjobs, List.mem_map]
  exact exists_congr fun job => by simp [Prod.ext_iff]

/-- No two requests are from one place. -/
theorem places_nodup (h : Runs F jsonObject start evs p) : (p.jobs.map Job.name).Nodup := by
  obtain ⟨hrun, hjobs⟩ := Joint.jobs_for h
  have hnodup := Client.asked_nodup (c := App.client F) not_sent
    (fun _ _ _ _ hrun hstep _ _ => App.sent_iff hrun hstep)
    (fun _ _ _ _ hrun hstep => (App.books hrun hstep).nodup)
    (fun _ _ _ _ hrun hstep _ hq => App.asks_fresh hrun hstep hq) hrun
  rwa [← hjobs, List.map_map] at hnodup

/-- **The app over its requests is the app.** Its steps are a run of the app.
No two of its requests are for one place. The responses it has taken in are
just the results that its requests have given, each once; it waits for just
those that have given none, and a request that can go on is not held up. -/
theorem program_answers (h : Runs F jsonObject start evs p) :
    App.Runs F p.log p.client ∧
    (p.jobs.map Job.name).Nodup ∧
    (p.log.filterMap App.answered).Perm (answersOf Sending.given p.jobs) ∧
    (∀ place, App.Outstanding p.client place ↔
      ∃ job ∈ p.jobs, job.name = place ∧ job.state.given = none) ∧
    ∀ i job e, p.jobs[i]? = some job → job.state.step (sessionManager jsonObject) e ≠ none →
      step F jsonObject start p (.job i e) ≠ none := by
  have hinv := inv h
  refine ⟨app_runs h, places_nodup h, Joint.answers_perm (App.lawful F) (once _ _) h,
    fun place => ?_, fun i job e hi hstep => ?_⟩
  · exact (hinv.due place).trans mem_dueNames
  · exact hinv.job_goes_on (App.lawful F) (once _ _) hi hstep

/-- Responses of one byte, which are the ids, the item and its comment. -/
def threeResponses : Data → Except String Json
  | [0] => .ok (Item.encodeArrayInt [1])
  | [1] => .ok (.object ({ id := some 1, kids := some [7] } : Item).encode)
  | _ => .ok (.object ({ id := some 7 } : Item).encode)

/-- Request `i` is made and answered with the data, and its handler runs. -/
def answerWith (i : ℕ) (data : Data) : List ProgramEvent :=
  [.call, .call, .call, .request (.didReceiveResponse 0 { statusCode := 200 }),
    .request (.didReceiveData 0 data), .request (.didComplete 0 none), .request .operation,
    .request .handler].map (.job i)

/-- The list loads one item, whose screen is opened and loads its comment. -/
def opensOne : List ProgramEvent :=
  [.own (.ui (.list (.ui .viewWillAppear))), .own (.ui (.list (.call 0 .background)))] ++
    answerWith 0 [0] ++ answerWith 1 [1] ++
    [.own (.ui (.list (.call 0 .notified))), .own (.ui (.select ⟨0, 0⟩)),
      .own (.call 0 (.ui .viewWillAppear)), .own (.call 0 (.call 0 .background)),
      .own (.call 0 (.call 0 .background)), .own (.call 0 (.call 0 .background))] ++
    answerWith 2 [2] ++ [.own (.call 0 (.call 0 .notified))]

theorem opensOne_runs : ∃ p screen, Runs .plain threeResponses (fun _ => .created) opensOne p ∧
    p.client.calls[0]? = some screen ∧
    p.client.ctrl.list.ctrl.items = [{ id := some 1, kids := some [7] }] ∧
    ListViewController.publishedBy p.client.ctrl.list.ctrl 0 = [p.client.ctrl.list.ctrl.items] ∧
    screen.ctrl.item = some { id := some 1, kids := some [7] } ∧
    DetailViewController.publishedBy screen.ctrl 0 = [[{ id := some 7 }]] :=
  ⟨_, _, rfl, rfl, rfl, rfl, rfl, rfl⟩

theorem program_answers_opens : ∃ p, Runs .plain threeResponses (fun _ => .created) opensOne p ∧
    (p.log.filterMap App.answered).Perm (answersOf Sending.given p.jobs) := by
  obtain ⟨p, -, h, -⟩ := opensOne_runs
  exact ⟨p, h, (program_answers h).2.2.1⟩

/-! ### What is requested, and given -/

/-- The request sent from the place, which is for `request`, has given `result`. -/
def Given (p : State) (place : App.Place) (request : Network.Request) (result : Result Json) : Prop :=
  ∃ job ∈ p.jobs, job.name = place ∧ job.what = request ∧ job.state.given = some result

/-- A place has one request. -/
theorem sent_unique {s : App.State} {request' : Network.Request} (h : App.Sent s place request)
    (h' : App.Sent s place request') : request = request' := by
  rcases place with ⟨r, slot⟩ | ⟨d, r, k⟩
  · obtain ⟨c, hc, hsent⟩ := h
    obtain ⟨c', hc', hsent'⟩ := h'
    obtain rfl := Option.some.inj (hc.symm.trans hc')
    rcases slot with _ | k
    · exact hsent.2.trans hsent'.2.symm
    · exact Option.some.inj (hsent.symm.trans hsent')
  · obtain ⟨screen, hd, c, hc, hsent⟩ := h
    obtain ⟨screen', hd', c', hc', hsent'⟩ := h'
    obtain rfl := Option.some.inj (hd.symm.trans hd')
    obtain rfl := Option.some.inj (hc.symm.trans hc')
    exact Option.some.inj (hsent.symm.trans hsent')

/-- A response that the app has taken in was given by the request sent from its place. -/
theorem given_of_log (h : Runs F jsonObject start evs p) (hsent : App.Sent p.client place request)
    (hlog : App.answer place result ∈ p.log) : Given p place request result := by
  obtain ⟨job, hjob, rfl, hgiven⟩ := ((inv h).answers_iff (App.lawful F)).mp hlog
  exact ⟨job, hjob, rfl, sent_unique ((requested_iff h).mp ⟨job, hjob, rfl, rfl⟩) hsent, hgiven⟩

theorem mem_listEvents {es : List (Event App.UIEvent App.ScreenEvent)}
    {e : Event ListViewController.UIEvent ListViewController.CallEvent} :
    e ∈ App.listEvents es ↔ .ui (.list e) ∈ es := by
  simp only [App.listEvents, List.mem_filterMap]
  constructor
  · rintro ⟨ev, hev, heq⟩
    rcases ev with (e' | ip) | ⟨d, e'⟩
    · obtain rfl := Option.some.inj heq
      exact hev
    · simp at heq
    · simp at heq
  · exact fun hmem => ⟨_, hmem, rfl⟩

/-- A reload of the list keeps its invariant. -/
theorem reload_inv (h : Runs F jsonObject start evs p) {r : ℕ} {c : ListViewController.Call}
    (hc : p.client.ctrl.list.calls[r]? = some c) : c.Inv := by
  have hlink := ListViewController.links (App.list_runs (app_runs h)) r
  rw [hc] at hlink
  exact hlink.1

/-- A load of an item screen keeps its invariant, and loads the kids of the screen's item. -/
theorem load_inv (h : Runs F jsonObject start evs p) {d r : ℕ} {screen : DetailViewController.State}
    {item : Item} {c : DetailViewController.Load} (hd : p.client.calls[d]? = some screen)
    (hitem : screen.ctrl.item = some item) (hc : screen.calls[r]? = some c) :
    c.Inv ∧ c.kids = item.kids := by
  obtain ⟨item', hscreen⟩ := App.details_runs (app_runs h) hd
  obtain ⟨hitem', hlink⟩ := DetailViewController.links hscreen r
  obtain rfl := Option.some.inj (hitem.symm.trans hitem')
  rw [hc] at hlink
  exact ⟨hlink.1, hlink.2.1⟩

/-- A reload's requests for items are for the ids of the result given to that for the ids. -/
theorem id_of_requested (h : Runs F jsonObject start evs p) {r k : ℕ}
    (hrequest : Requested p (.list r (.item k)) request) :
    ∃ result ids id, Given p (.list r .ids) idsRequest result ∧ itemIdsOf result = some ids ∧
      ids[k]? = some id ∧ request = itemRequest id := by
  obtain ⟨c, hc, hsent⟩ := (requested_iff h).mp hrequest
  have hk : c.fetch.issued[k]? = some request := hsent
  obtain ⟨ids, hst, hissued⟩ := (reload_inv h hc).fetching_of_issued
    (List.ne_nil_of_mem (List.mem_of_getElem? hk))
  obtain ⟨result, hmem, hids⟩ := ListViewController.ids_of_stage (App.list_runs (app_runs h)) hc hst
  rw [hissued, List.getElem?_map, Option.map_eq_some_iff] at hk
  obtain ⟨id, hid, hrequest⟩ := hk
  have hsentIds : App.Sent p.client (.list r .ids) idsRequest := ⟨c, hc, by simp [hst], rfl⟩
  exact ⟨result, ids, id, given_of_log h hsentIds (mem_listEvents.mp hmem), hids, hid, hrequest.symm⟩

/-- And there is one for each of these ids. -/
theorem requested_of_id (h : Runs F jsonObject start evs p) {r k : ℕ} {ids : List ℤ} {id : ℤ}
    (hgiven : Given p (.list r .ids) idsRequest result) (hids : itemIdsOf result = some ids)
    (hid : ids[k]? = some id) : Requested p (.list r (.item k)) (itemRequest id) := by
  obtain ⟨job, hjob, hname, hwhat, hresult⟩ := hgiven
  have hlog := ((inv h).answers_iff (App.lawful F)).mpr ⟨job, hjob, hname, hresult⟩
  obtain ⟨c, hc, -⟩ := (requested_iff h).mp ⟨job, hjob, hname, hwhat⟩
  have hst := ListViewController.stage_of_ids (App.list_runs (app_runs h)) hc
    (mem_listEvents.mpr hlog) hids
  have hstage := (reload_inv h hc).stage
  simp only [ListViewController.Call.StageOk, hst] at hstage
  refine (requested_iff h).mpr ⟨c, hc, ?_⟩
  show c.fetch.issued[k]? = some (itemRequest id)
  rw [hstage.1, List.getElem?_map, hid]
  rfl

/-- A load's requests are for the kids of the screen's item. -/
theorem kid_of_requested (h : Runs F jsonObject start evs p) {d r k : ℕ}
    {screen : DetailViewController.State} {item : Item} (hd : p.client.calls[d]? = some screen)
    (hitem : screen.ctrl.item = some item) (hrequest : Requested p (.screen d r k) request) :
    ∃ kids id, item.kids = some kids ∧ kids[k]? = some id ∧ request = itemRequest id := by
  obtain ⟨screen', hd', c, hc, hsent⟩ := (requested_iff h).mp hrequest
  obtain rfl := Option.some.inj (hd.symm.trans hd')
  obtain ⟨hinv, hkids⟩ := load_inv h hd hitem hc
  obtain ⟨kids, id, hck, hid, hwhat⟩ := hinv.sent_kid hsent
  exact ⟨kids, id, hkids.symm.trans hck, hid, hwhat⟩

/-- And when its block has ended there is one for each of the kids. -/
theorem requested_of_kid (h : Runs F jsonObject start evs p) {d r k : ℕ}
    {screen : DetailViewController.State} {item : Item} {c : DetailViewController.Load}
    {kids : List ℤ} {id : ℤ} (hd : p.client.calls[d]? = some screen)
    (hitem : screen.ctrl.item = some item) (hc : screen.calls[r]? = some c) (ht : c.thread = none)
    (hkids : item.kids = some kids) (hid : kids[k]? = some id) :
    Requested p (.screen d r k) (itemRequest id) := by
  obtain ⟨hinv, hck⟩ := load_inv h hd hitem hc
  have hok := hinv.thread kids (hck.trans hkids)
  simp only [DetailViewController.Load.ThreadOk, ht] at hok
  refine (requested_iff h).mpr ⟨screen, hd, c, hc, ?_⟩
  show c.fetch.issued[k]? = some (itemRequest id)
  rw [← hok.1, List.getElem?_map, hid]
  rfl

/-- **Each id has one request.** A reload has a request for the ids once its
block on the global queue has run. It has one for each id of the result given
to that, by its position, and no other; so has a load for the item's kids when
its block has ended, and no other ever. -/
theorem requests_sent (h : Runs F jsonObject start evs p) :
    (∀ r request, Requested p (.list r .ids) request ↔ request = idsRequest ∧
      ∃ c, p.client.ctrl.list.calls[r]? = some c ∧ c.stage ≠ .dispatched) ∧
    (∀ r k request, Requested p (.list r (.item k)) request ↔
      ∃ result ids id, Given p (.list r .ids) idsRequest result ∧ itemIdsOf result = some ids ∧
        ids[k]? = some id ∧ request = itemRequest id) ∧
    ∀ (d : ℕ) (screen : DetailViewController.State), p.client.calls[d]? = some screen →
      ∃ item, screen.ctrl.item = some item ∧
        (∀ r k request, Requested p (.screen d r k) request →
          ∃ kids id, item.kids = some kids ∧ kids[k]? = some id ∧ request = itemRequest id) ∧
        ∀ r (c : DetailViewController.Load) kids, screen.calls[r]? = some c → c.thread = none →
          item.kids = some kids →
          ∀ k id, kids[k]? = some id → Requested p (.screen d r k) (itemRequest id) := by
  refine ⟨fun r request => ?_, fun r k request => ⟨id_of_requested h, ?_⟩, fun d screen hd => ?_⟩
  · rw [requested_iff h]
    constructor
    · rintro ⟨c, hc, hstage, hrequest⟩
      exact ⟨hrequest, c, hc, hstage⟩
    · rintro ⟨hrequest, c, hc, hstage⟩
      exact ⟨c, hc, hstage, hrequest⟩
  · rintro ⟨result, ids, id, hgiven, hids, hid, rfl⟩
    exact requested_of_id h hgiven hids hid
  · obtain ⟨item, hscreen⟩ := App.details_runs (app_runs h) hd
    have hitem := DetailViewController.item_eq hscreen
    exact ⟨item, hitem, fun r k request hrequest => kid_of_requested h hd hitem hrequest,
      fun r c kids hc ht hkids k id hid => requested_of_kid h hd hitem hc ht hkids hid⟩

theorem opensOne_requested : ∃ p, Runs .plain threeResponses (fun _ => .created) opensOne p ∧
    Requested p (.list 0 (.item 0)) (itemRequest 1) :=
  ⟨_, rfl, _, List.mem_cons_of_mem _ List.mem_cons_self, rfl, rfl⟩

theorem requests_sent_opens : ∃ p, Runs .plain threeResponses (fun _ => .created) opensOne p ∧
    ∃ result ids id, Given p (.list 0 .ids) idsRequest result ∧ itemIdsOf result = some ids ∧
      ids[0]? = some id ∧ itemRequest 1 = itemRequest id := by
  obtain ⟨p, h, hrequested⟩ := opensOne_requested
  exact ⟨p, h, ((requests_sent h).2.1 0 0 _).mp hrequested⟩

/-! ### Where the requests go -/

instance : Nonempty (Result Json) := ⟨.success .null⟩

/-- **The items of a reload are those of its responses.** An array that a
reload has published is, up to the order in which they came, that of the
results given to its requests: one for the ids, and one for each of these. -/
theorem items_given (h : Runs F jsonObject start evs p) {r : ℕ} {array : List Item}
    (ha : array ∈ ListViewController.publishedBy p.client.ctrl.list.ctrl r) :
    ∃ ids result, Given p (.list r .ids) idsRequest result ∧ itemIdsOf result = some ids ∧
      ∃ o : ℕ → Result Json,
        (∀ k id, ids[k]? = some id → Given p (.list r (.item k)) (itemRequest id) (o k)) ∧
        array.Perm (sequential (fun k => itemOf F (o k)) ids.length) := by
  have hlist := App.list_runs (app_runs h)
  have hlink := ListViewController.links hlist r
  rcases hc : p.client.ctrl.list.calls[r]? with _ | c
  · rw [hc] at hlink
    rw [hlink.2] at ha
    exact absurd ha List.not_mem_nil
  rw [hc] at hlink
  obtain ⟨hinv, -, hpub⟩ := hlink
  have hne : c.fetch.ran ≠ [] := by
    rintro hnil
    rw [hpub, hnil] at ha
    exact absurd ha List.not_mem_nil
  obtain ⟨ids, hst⟩ := hinv.fetching_of_registered (hinv.fetch.registered_ne (by simp [hne]))
  obtain ⟨result, hmem, hids⟩ := ListViewController.ids_of_stage hlist hc hst
  obtain ⟨d, hd, rfl⟩ := ListViewController.published_delivery hlist hmem hids ha
  have hstage := hinv.stage
  simp only [ListViewController.Call.StageOk, hst] at hstage
  -- each response in the array is in the log, and so was given by a request
  obtain ⟨o, ho, hagrees⟩ := d.exists_agrees (P := fun k result =>
      App.answer (.list r (.item k)) result ∈ p.log) (g := itemOf F) (by
    rintro ⟨k, o⟩ he
    rw [hd, ListViewController.responses, List.mem_filterMap] at he
    obtain ⟨e, he, heq⟩ := he
    rcases e with _ | _ | ⟨k', result⟩ | _ | _ <;> simp [ListViewController.response] at heq
    obtain ⟨rfl, rfl⟩ := heq
    exact ⟨result, mem_listEvents.mp (mem_eventsOf.mp he), rfl⟩)
  refine ⟨ids, result, ?_, hids, o, fun k id hk => ?_, Delivery.array_perm hagrees⟩
  · exact given_of_log h ⟨c, hc, by simp [hst], rfl⟩ (mem_listEvents.mp hmem)
  · have hissued : c.fetch.issued[k]? = some (itemRequest id) := by
      rw [hstage.1, List.getElem?_map, hk]
      rfl
    exact given_of_log h ⟨c, hc, hissued⟩ (ho k (List.getElem?_eq_some_iff.mp hk).1)

theorem items_given_opens : ∃ p, Runs .plain threeResponses (fun _ => .created) opensOne p ∧
    ∃ ids result, Given p (.list 0 .ids) idsRequest result ∧ itemIdsOf result = some ids := by
  obtain ⟨p, screen, h, -, -, hpub, -⟩ := opensOne_runs
  obtain ⟨ids, result, hgiven, hids, -⟩ := items_given h (hpub ▸ List.mem_cons_self)
  exact ⟨p, h, ids, result, hgiven, hids⟩

/-- **The comments of a load are those of its responses.** So it is with an
array that a load has published on an item screen, and the item's kids. -/
theorem comments_given (h : Runs F jsonObject start evs p) {d : ℕ} {screen : DetailViewController.State}
    (hd : p.client.calls[d]? = some screen) {r : ℕ} {array : List Item}
    (ha : array ∈ DetailViewController.publishedBy screen.ctrl r) :
    ∃ item kids, screen.ctrl.item = some item ∧ item.kids = some kids ∧
      ∃ o : ℕ → Result Json,
        (∀ k id, kids[k]? = some id → Given p (.screen d r k) (itemRequest id) (o k)) ∧
        array.Perm (sequential (fun k => itemOf F (o k)) kids.length) := by
  obtain ⟨item, hscreen⟩ := App.details_runs (app_runs h) hd
  obtain ⟨hitem, hlink⟩ := DetailViewController.links hscreen r
  rcases hc : screen.calls[r]? with _ | c
  · rw [hc] at hlink
    rw [hlink.2] at ha
    exact absurd ha List.not_mem_nil
  rw [hc] at hlink
  obtain ⟨hinv, hkids', -, hpub⟩ := hlink
  have hne : c.fetch.ran ≠ [] := by
    rintro hnil
    rw [hpub, hnil] at ha
    exact absurd ha List.not_mem_nil
  obtain ⟨-, -, kids, hkids, hissued⟩ := hinv.submitted (List.append_ne_nil_of_right_ne_nil _ hne)
  rw [hkids'] at hkids
  obtain ⟨dl, hdl, rfl⟩ := DetailViewController.published_delivery hscreen hkids ha
  obtain ⟨o, ho, hagrees⟩ := dl.exists_agrees (P := fun k result =>
      App.answer (.screen d r k) result ∈ p.log) (g := itemOf F) (by
    rintro ⟨k, o⟩ he
    rw [hdl, DetailViewController.responses, List.mem_filterMap] at he
    obtain ⟨e, he, heq⟩ := he
    rcases e with _ | ⟨k', result⟩ | _ <;> simp [DetailViewController.response] at heq
    obtain ⟨rfl, rfl⟩ := heq
    exact ⟨result, mem_eventsOf.mp (mem_eventsOf.mp he), rfl⟩)
  refine ⟨item, kids, hitem, hkids, o, fun k id hk => ?_, Delivery.array_perm hagrees⟩
  have hsent : c.fetch.issued[k]? = some (itemRequest id) := by
    rw [hissued, List.getElem?_map, hk]
    rfl
  exact given_of_log h ⟨screen, hd, c, hc, hsent⟩ (ho k (List.getElem?_eq_some_iff.mp hk).1)

theorem comments_given_opens : ∃ p, Runs .plain threeResponses (fun _ => .created) opensOne p ∧
    ∃ result, Given p (.screen 0 0 0) (itemRequest 7) result := by
  obtain ⟨p, screen, h, hd, -, -, hitem, hpub⟩ := opensOne_runs
  obtain ⟨item, kids, hitem', hkids, o, ho, -⟩ := comments_given h hd (hpub ▸ List.mem_cons_self)
  obtain rfl := Option.some.inj (hitem.symm.trans hitem')
  obtain rfl := Option.some.inj hkids
  exact ⟨p, h, o 0, ho 0 7 rfl⟩

/-! ### From the data of a response to the screen -/

/-- The item was decoded from the data of a response to a request for an item,
a response that was accepted. -/
def Received (F : Foundation) (jsonObject : Data → Except String Json) (start : String → Start)
    (p : State) (item : Item) : Prop :=
  ∃ job ∈ p.jobs, ∃ id json, job.what = itemRequest id ∧
    Sending.Accepted (job.state.attempt (start job.what.path)) ∧
    jsonObject (job.state.attempt (start job.what.path)).data = .ok (.object json) ∧
    Item.decode F json = .ok item

theorem itemOf_eq_some {item : Item} (h : itemOf F result = some item) :
    ∃ json, result = .success (.object json) ∧ Item.decode F json = .ok item := by
  rcases result with data | error
  · obtain ⟨json, hdata, hitem⟩ := Option.bind_eq_some_iff.mp h
    rcases data with _ | _ | _ | _ | _ | json' <;> simp [Json.asDictionary] at hdata
    subst hdata
    rcases hdecode : Item.decode F json' with e | item'
    · simp [hdecode, Except.toOption] at hitem
    · simp only [hdecode, Except.toOption, Option.some.injEq] at hitem
      exact ⟨json', rfl, hitem ▸ hdecode⟩
  · simp [itemOf] at h

/-- A response that the app has taken in, and that brought an item, was received. -/
theorem received_of_log (h : Runs F jsonObject start evs p) (place : App.Place) {item : Item}
    (hplace : ∀ request, App.Sent p.client place request → ∃ id, request = itemRequest id)
    (hlog : App.answer place result ∈ p.log) (hitem : itemOf F result = some item) :
    Received F jsonObject start p item := by
  obtain ⟨job, hjob, rfl, hgiven⟩ := ((inv h).answers_iff (App.lawful F)).mp hlog
  obtain ⟨id, hwhat⟩ := hplace job.what ((requested_iff h).mp ⟨job, hjob, rfl, rfl⟩)
  obtain ⟨json, rfl, hdecode⟩ := itemOf_eq_some hitem
  obtain ⟨es, hrun⟩ := Joint.jobs_run h job hjob
  have hinv : job.state.Inv (sessionManager jsonObject) (start job.what.path) := Sending.inv hrun
  obtain ⟨hacc, hjson⟩ := (hinv.success_iff hgiven _).mp rfl
  rcases hjson with ⟨-, hnull⟩ | ⟨-, -, hdata⟩
  · simp at hnull
  · exact ⟨job, hjob, id, json, hwhat, hacc, hdata, hdecode⟩

theorem received_of_brought (h : Runs F jsonObject start evs p) {item : Item}
    (hbrought : ListViewController.Brought F item (App.listEvents p.log)) :
    Received F jsonObject start p item := by
  obtain ⟨r, k, result, hmem, hitem⟩ := hbrought
  refine received_of_log h (.list r (.item k)) ?_ (mem_listEvents.mp hmem) hitem
  rintro request ⟨c, hc, hsent⟩
  exact (reload_inv h hc).sent_item hsent

/-- **All that is shown was received.** Each item of the list, the item of
each item screen and each of its comments was decoded from the data of a
response to a request for an item, one that completed without an error and
whose status code `validate()` accepts, unless it came too late for that. -/
theorem rows_received (h : Runs F jsonObject start evs p) :
    (∀ item ∈ p.client.ctrl.list.ctrl.items, Received F jsonObject start p item) ∧
    ∀ screen ∈ p.client.calls,
      (∃ item, screen.ctrl.item = some item ∧ Received F jsonObject start p item) ∧
      ∀ kid ∈ screen.ctrl.kids, Received F jsonObject start p kid := by
  have happ := app_runs h
  refine ⟨fun item hitem => ?_, fun screen hscreen => ⟨?_, fun kid hkid => ?_⟩⟩
  · exact received_of_brought h (ListViewController.brought_of_mem_items (App.list_runs happ) hitem)
  · obtain ⟨item, hitem, hbrought⟩ := App.opened_brought happ screen hscreen
    exact ⟨item, hitem, received_of_brought h hbrought⟩
  · obtain ⟨d, hd⟩ := List.mem_iff_getElem?.mp hscreen
    obtain ⟨item, hrun⟩ := App.details_runs happ hd
    obtain ⟨r, k, result, hmem, hitem⟩ := DetailViewController.brought_of_mem_kids hrun hkid
    refine received_of_log h (.screen d r k) ?_ (mem_eventsOf.mp hmem) hitem
    rintro request ⟨screen', hd', c, hc, hsent⟩
    obtain rfl := Option.some.inj (hd.symm.trans hd')
    obtain ⟨kids, id, -, -, hrequest⟩ :=
      (load_inv h hd (DetailViewController.item_eq hrun) hc).1.sent_kid hsent
    exact ⟨id, hrequest⟩

theorem rows_received_opens : ∃ p, Runs .plain threeResponses (fun _ => .created) opensOne p ∧
    Received .plain threeResponses (fun _ => .created) p { id := some 1, kids := some [7] } := by
  obtain ⟨p, screen, h, -, hitems, -⟩ := opensOne_runs
  exact ⟨p, h, (rows_received h).1 _ (hitems ▸ List.mem_cons_self)⟩

/-! ### Left alone -/

/-- The event is not the user's. -/
def Unattended : ProgramEvent → Prop := Joint.Quietly App.Unattended fun _ => True

/-- It takes the app or a request on: it is not another piece of a response. -/
def Quiet : ProgramEvent → Prop := Joint.Quietly App.Unattended Sending.Winds

theorem answer_unattended (place : App.Place) (result : Result Json) :
    App.Unattended (App.answer place result) := by
  rcases place with ⟨r, slot⟩ | ⟨d, r, k⟩
  · exact Or.inl ⟨_, rfl, r, _, rfl⟩
  · exact Or.inr ⟨d, _, rfl, r, _, rfl⟩

/-- What is left of the app, and of its requests. -/
def rank (jsonObject : Data → Except String Json) (p : State) : ((ℕ ×ₗ ℕ) ×ₗ ℕ) ×ₗ ℕ :=
  toLex (App.rank p.client, (p.jobs.map fun job => job.state.rank (sessionManager jsonObject)).sum)

theorem lowers (F : Foundation) (jsonObject : Data → Except String Json) (start : String → Start) :
    Lowers (step F jsonObject start) Quiet (rank jsonObject) := by
  refine Joint.lowers (App.lowers F) answer_unattended ?_
  intro s ev s' hev hstep
  have hstep : s.step (sessionManager jsonObject) ev = some (s', none) := hstep
  exact Sending.step_rank hev hstep

/-- Where nothing is left to happen the app waits for no request, and is idle. -/
theorem idle_of_rest (h : Runs F jsonObject start evs p)
    (hrest : ∀ ev, Quiet ev → step F jsonObject start p ev = none) :
    (∀ place, ¬ App.Outstanding p.client place) ∧ App.Idle F p.client := by
  have hdone : ∀ s : Sending, (∃ st, s.Inv (sessionManager jsonObject) st) →
      (∀ ev, Sending.Winds ev → s.step (sessionManager jsonObject) ev = none) → s.given ≠ none := by
    rintro s ⟨st, hs⟩ hnone
    exact Sending.given_of_rest rfl hs hnone
  obtain ⟨hout, hidle⟩ := (inv h).rest (App.lawful F) (once _ _) hdone hrest
  exact ⟨hout, App.idle_of_rest hidle⟩

/-- **The app over its requests settles.** While the user does nothing the app
and its requests do not go on for ever but for pieces of responses, and can
always go on to where nothing is left to happen. There every request has given
its result, the app waits for none, and each screen that had appeared shows
what it has and is not loading. -/
theorem program_settles (h : Runs F jsonObject start evs p) :
    (∀ f : ℕ → State, ∃ n, ∀ ev, Quiet ev → step F jsonObject start (f n) ev ≠ some (f (n + 1))) ∧
    (∃ evs' q, (∀ ev ∈ evs', Quiet ev) ∧ run (step F jsonObject start) p evs' = some q ∧
      ∀ ev, Quiet ev → step F jsonObject start q ev = none) ∧
    ∀ evs' q, (∀ ev ∈ evs', Unattended ev) → run (step F jsonObject start) p evs' = some q →
      (∀ ev, Quiet ev → step F jsonObject start q ev = none) →
      (∀ job ∈ q.jobs, job.state.given ≠ none) ∧ (∀ place, ¬ App.Outstanding q.client place) ∧
      (Along (ListViewController.machine F).step ListViewController.PulledAfterAppearing
          { ctrl := {} } (App.listEvents p.log) → p.client.ctrl.list.ctrl.appeared = true →
        q.client.ctrl.list.ctrl.loadingItems = false ∧ q.client.ctrl.list.ctrl.refreshing = false ∧
          ∃ t, q.client.ctrl.list.ctrl.table = some t ∧
            t.rows = List.replicate q.client.ctrl.list.ctrl.items.length 1) ∧
      ∀ (d : ℕ) (screen : DetailViewController.State), p.client.calls[d]? = some screen →
        screen.ctrl.appeared = true → ∃ screen' : DetailViewController.State,
          q.client.calls[d]? = some screen' ∧ screen'.ctrl.loadingKids = false ∧
          ∃ t, screen'.ctrl.table = some t ∧ t.rows[1]? = some screen'.ctrl.kids.length := by
  refine ⟨(lowers F jsonObject start).no_infinite_run, (lowers F jsonObject start).exists_rest p,
    fun evs' q hevs hrun hrest => ?_⟩
  have hq : Runs F jsonObject start (evs ++ evs') q := run_append_iff.mpr ⟨p, h, hrun⟩
  obtain ⟨hout, hidle⟩ := idle_of_rest hq hrest
  obtain ⟨es, -, hes, happ⟩ := Joint.run_log answer_unattended hevs hrun
  refine ⟨fun job hjob hnone => ?_, hout, App.settled (app_runs h) hes happ hidle⟩
  exact hout job.name (((inv hq).due job.name).mpr (mem_dueNames.mpr ⟨job, hjob, rfl, hnone⟩))

theorem program_settles_opens : ∃ p, Runs .plain threeResponses (fun _ => .created) opensOne p ∧
    ∃ evs' q, run (step .plain threeResponses fun _ => .created) p evs' = some q ∧
      ∀ job ∈ q.jobs, job.state.given ≠ none := by
  obtain ⟨p, -, h, -⟩ := opensOne_runs
  obtain ⟨-, ⟨evs', q, hquiet, hrun, hrest⟩, hall⟩ := program_settles h
  refine ⟨p, h, evs', q, hrun, (hall evs' q (fun ev hev => ?_) hrun hrest).1⟩
  rcases ev with e | ⟨i, e⟩
  · exact hquiet _ hev
  · trivial

/-! ### What the user is told of failures -/

/-- The alert for the result of a request, if it was for the ids and has an error. -/
def alertOf (F : Foundation) : App.Place × Result Json → Option ListViewController.Alert
  | (.list _ .ids, result) => (idsError result).map (ListViewController.alert F)
  | _ => none

/-- The errors that the list takes in are those of the responses the app does. -/
theorem takenIn_listEvents (es : List (Event App.UIEvent App.ScreenEvent)) :
    takenIn (ListViewController.alertFor F) (App.listEvents es) =
      (es.filterMap App.answered).filterMap (alertOf F) := by
  unfold takenIn App.listEvents
  rw [List.filterMap_filterMap, List.filterMap_filterMap]
  refine congrArg (List.filterMap · es) (funext fun ev => ?_)
  rcases ev with ((u | ⟨r, e⟩) | ip) | ⟨d, u | ⟨r, e⟩⟩
  · rfl
  · cases e <;> rfl
  · rfl
  · rfl
  · cases e <;> rfl

/-- **One alert for each ids request that fails.** The alerts that `present` was
called with, and those whose blocks wait on the main queue, are those of the
requests for the ids that have given a failure or something else than ids. A
failed request for an item is not shown. Where nothing is left to happen none waits. -/
theorem alerts_given (h : Runs F jsonObject start evs p) :
    (p.client.ctrl.list.ctrl.presented ++ ListViewController.waiting F p.client.ctrl.list).Perm
      ((answersOf Sending.given p.jobs).filterMap (alertOf F)) ∧
    ((∀ ev, Quiet ev → step F jsonObject start p ev = none) →
      p.client.ctrl.list.ctrl.presented.Perm
        ((answersOf Sending.given p.jobs).filterMap (alertOf F))) := by
  have hlist := App.list_runs (app_runs h)
  have hall := ListViewController.alerts_presented hlist
  rw [takenIn_listEvents] at hall
  have hgiven := hall.trans ((Joint.answers_perm (App.lawful F) (once _ _) h).filterMap (alertOf F))
  refine ⟨hgiven, fun hrest => ?_⟩
  have hquiet := ListViewController.atRest_iff.mp (idle_of_rest h hrest).2.1
  rwa [ListViewController.waiting_of_quiet hquiet, List.append_nil] at hgiven

/-- The request for the ids is not found. -/
def idsNotFound : List ProgramEvent :=
  [.own (.ui (.list (.ui .viewWillAppear))), .own (.ui (.list (.call 0 .background)))] ++
    Sending.notFound.map (.job 0) ++ [.own (.ui (.list (.call 0 .failed)))]

theorem idsNotFound_runs : ∃ p, Runs .plain threeResponses (fun _ => .created) idsNotFound p ∧
    ListViewController.waiting .plain p.client.ctrl.list = [] ∧
    (answersOf Sending.given p.jobs).filterMap (alertOf .plain) =
      [⟨"Error", "Response status code was unacceptable: 404.", "Dismiss"⟩] :=
  ⟨_, rfl, rfl, rfl⟩

theorem alerts_given_notFound : ∃ p, Runs .plain threeResponses (fun _ => .created) idsNotFound p ∧
    p.client.ctrl.list.ctrl.presented =
      [⟨"Error", "Response status code was unacceptable: 404.", "Dismiss"⟩] := by
  obtain ⟨p, h, hwaiting, hgiven⟩ := idsNotFound_runs
  have hperm := (alerts_given h).1
  rw [hwaiting, List.append_nil, hgiven] at hperm
  exact ⟨p, h, List.perm_singleton.mp hperm⟩

end Program
end Workshop2018
