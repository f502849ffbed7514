/-
# Every reload of the list completes once

What holds of one reload, whatever the other reloads and the user do:
`Call.Inv` says how its stage, its group, its requests and its blocks fit
together, and `Link` how many times the controller has run its completion and
what it has published. Both are kept by every step, so they hold of every
reload in every run (`histories`, `links`).

Key definitions: `Call.Moves`, `Call.Inv`, `Link`, `responses`.
Key theorems: `Call.step_moves`, `Call.Inv.step`, `links`, `settled_eq`, `reload_fan_in`.
-/
import Workshop2018.Screens.List

namespace Workshop2018
namespace ListViewController

open Concurrent

/-! ### What a step of a reload does -/

/-- The steps of a reload, each with what it needs and what it changes. -/
inductive Call.Moves (F : Foundation) (c : Call) : CallEvent → Call → Effect → Prop
  | background (h : c.stage = .dispatched) :
      Moves F c .background { c with stage := .asking } .none
  | idsSuccess (result : Result Json) (ids : List ℤ) (h : c.stage = .asking)
      (hids : Network.itemIdsOf result = some ids) :
      Moves F c (.idsResponse result) (c.success ids) .none
  | idsFailure (result : Result Json) (error : SwiftError) (h : c.stage = .asking)
      (hids : Network.itemIdsOf result = none) :
      Moves F c (.idsResponse result) (c.failure error) .none
  | itemResponse (k : ℕ) (result : Result Json) (hk : k ∈ c.fetch.requests) :
      Moves F c (.itemResponse k result)
        { c with fetch := c.fetch.settle k (Network.itemOf F result) } .none
  | notified (b : Completion) (fetch : Fetch Completion) (h : c.fetch.next = some (b, fetch)) :
      Moves F c .notified { c with fetch } (.publish c.fetch.array b)
  | failed (error : SwiftError) (alerts : List SwiftError) (h : c.alerts = error :: alerts) :
      Moves F c .failed { c with alerts, alerted := c.alerted ++ [error] }
        (.present error c.completion)

variable {F : Foundation} {c c' : Call} {e : CallEvent} {x : Effect}

theorem Call.step_moves (h : c.step F e = some (c', x)) : c.Moves F e c' x := by
  cases e with
  | background =>
    simp only [Call.step] at h
    split at h
    · rename_i hs; cases h; exact .background hs
    · simp at h
  | idsResponse result =>
    simp only [Call.step] at h
    split at h
    · rename_i hs
      rcases Network.askstoriesItemsIds_eq c.success c.failure result with
        ⟨ids, hids, he⟩ | ⟨hids, error, he⟩
      · rw [he] at h; cases h; exact .idsSuccess result ids hs hids
      · rw [he] at h; cases h; exact .idsFailure result error hs hids
    · simp at h
  | itemResponse k result =>
    simp only [Call.step] at h
    split at h
    · simp at h
    · rename_i fetch hf
      obtain ⟨hk, rfl⟩ := Fetch.response_eq_some.mp hf
      cases h
      exact .itemResponse k result hk
  | notified =>
    simp only [Call.step] at h
    split at h
    · simp at h
    · rename_i b fetch hn; cases h; exact .notified b fetch hn
  | failed =>
    simp only [Call.step] at h
    split at h
    · simp at h
    · rename_i error alerts ha; cases h; exact .failed error alerts ha

/-! ### The invariant of a reload -/

/-- What has been set up at each stage: before the ids nothing, then one
registered block and the requests for the ids, or one failure block. -/
def Call.StageOk (c : Call) : Prop :=
  match c.stage with
  | .dispatched | .asking => c.fetch = {} ∧ c.alerts = [] ∧ c.alerted = []
  | .fetching ids => c.fetch.issued = ids.map Network.itemRequest ∧
      c.fetch.registered = [c.completion] ∧ c.alerts = [] ∧ c.alerted = []
  | .failing => c.fetch = {} ∧ c.alerts.length + c.alerted.length = 1

structure Call.Inv (c : Call) : Prop where
  fetch : c.fetch.Inv
  stage : c.StageOk

theorem reloadData_inv (completion : Completion) : (reloadData completion).Inv :=
  ⟨FanIn.inv_empty, rfl, rfl, rfl⟩

/-- The success closure sends a request for each id, in order, and registers its block. -/
theorem Call.success_inv (c : Call) (ids : List ℤ) (ha : c.alerts = [] ∧ c.alerted = []) :
    (c.success ids).Inv := by
  have hissued := FanIn.issueAll_issued (ids.map Network.itemRequest) ({} : Fetch Completion)
  have hreg := FanIn.issueAll_registered (ids.map Network.itemRequest) ({} : Fetch Completion)
  have hent := FanIn.issueAll_entered (ids.map Network.itemRequest) ({} : Fetch Completion)
  have hinv : (FanIn.issueAll (ids.map Network.itemRequest) ({} : Fetch Completion)).Inv :=
    FanIn.inv_empty.issueAll _ rfl
  refine ⟨hinv.notify c.completion ?_ hreg, ?_, ?_, ha⟩
  · simp [hissued, hent]
  · simpa [Call.success, FanIn.notify] using hissued
  · simp [Call.success, FanIn.notify, hreg]

theorem Call.Inv.step (h : c.Inv) (hs : c.step F e = some (c', x)) : c'.Inv := by
  have hstage := h.stage
  cases Call.step_moves hs with
  | background hd =>
    refine ⟨h.fetch, ?_⟩
    simpa [Call.StageOk, hd] using hstage
  | idsSuccess result ids ha hids =>
    simp only [Call.StageOk, ha] at hstage
    exact c.success_inv ids hstage.2
  | idsFailure result error ha hids =>
    simp only [Call.StageOk, ha] at hstage
    obtain ⟨hf, hal, hald⟩ := hstage
    refine ⟨h.fetch, hf, ?_⟩
    simp [Call.failure, hal, hald]
  | itemResponse k result hk =>
    refine ⟨h.fetch.settle hk _, ?_⟩
    cases hst : c.stage with
    | fetching ids =>
      simp only [Call.StageOk, hst] at hstage ⊢
      rwa [FanIn.settle_eq]
    | _ =>
      -- no request is outstanding before the ids have come
      simp only [Call.StageOk, hst] at hstage
      rw [hstage.1] at hk
      simp at hk
  | notified b fetch hn =>
    refine ⟨h.fetch.next hn, ?_⟩
    obtain ⟨bs, hq, rfl⟩ := FanIn.next_eq_some.mp hn
    cases hst : c.stage with
    | fetching ids =>
      simp only [Call.StageOk, hst] at hstage ⊢
      exact hstage
    | _ =>
      simp only [Call.StageOk, hst] at hstage
      rw [hstage.1] at hq
      simp at hq
  | failed error alerts ha =>
    refine ⟨h.fetch, ?_⟩
    cases hst : c.stage with
    | failing =>
      simp only [Call.StageOk, hst, ha, List.length_cons] at hstage ⊢
      refine ⟨hstage.1, ?_⟩
      simp only [List.length_append, List.length_singleton]
      omega
    | _ =>
      simp only [Call.StageOk, hst, ha] at hstage
      simp at hstage

variable {es : List (Event UIEvent CallEvent)} {s : State} {r : ℕ}

/-! ### What the controller remembers of a reload -/

section Fields

variable (r : ℕ) (b : Completion) (g : Controller)

@[simp] theorem complete_items : (complete r b g).items = g.items := by cases b <;> rfl
@[simp] theorem complete_published : (complete r b g).published = g.published := by cases b <;> rfl
@[simp] theorem complete_completed : (complete r b g).completed = g.completed ++ [r] := by
  cases b <;> rfl
@[simp] theorem complete_appeared : (complete r b g).appeared = g.appeared := by cases b <;> rfl
@[simp] theorem superViewWillAppear_items : (superViewWillAppear g).items = g.items := by
  unfold superViewWillAppear; split <;> rfl
@[simp] theorem superViewWillAppear_published :
    (superViewWillAppear g).published = g.published := by
  unfold superViewWillAppear; split <;> rfl
@[simp] theorem superViewWillAppear_completed :
    (superViewWillAppear g).completed = g.completed := by
  unfold superViewWillAppear; split <;> rfl
@[simp] theorem superViewWillAppear_loadingItems :
    (superViewWillAppear g).loadingItems = g.loadingItems := by
  unfold superViewWillAppear; split <;> rfl
@[simp] theorem superViewWillAppear_refreshing :
    (superViewWillAppear g).refreshing = g.refreshing := by
  unfold superViewWillAppear; split <;> rfl

end Fields

/-- An appearance starts a reload if there are no items, and a pull always. -/
theorem viewWillAppear_eq (g : Controller) :
    viewWillAppear g = (superViewWillAppear g,
      if g.items = [] then [reloadData .viewWillAppear] else []) := by
  simp only [viewWillAppear, superViewWillAppear_items, List.length_eq_zero_iff]
  split <;> rfl

/-- A user's event starts at most one reload, a new one, and leaves the
history alone. -/
theorem ui_eq {n : ℕ} {g g' : Controller} {u : UIEvent} {new : List Call}
    (h : (machine F).ui n g u = some (g', new)) :
    (new = [] ∨ ∃ b, new = [reloadData b]) ∧ g'.published = g.published ∧
      g'.completed = g.completed := by
  rcases u with _ | _
  · obtain ⟨rfl, rfl⟩ := Prod.mk.inj ((viewWillAppear_eq g).symm.trans (Option.some.inj h))
    refine ⟨?_, superViewWillAppear_published g, superViewWillAppear_completed g⟩
    by_cases hnil : g.items = []
    · rw [if_pos hnil]
      exact Or.inr ⟨_, rfl⟩
    · rw [if_neg hnil]
      exact Or.inl rfl
  · cases h
    exact ⟨Or.inr ⟨_, rfl⟩, rfl, rfl⟩

/-- The arrays that reload `r` has assigned to `items`. -/
def publishedBy (g : Controller) (r : ℕ) : List (List Item) := entriesOf r g.published

/-- A reload has completed once for each of its blocks on the main queue that
has run, and published its array once for each block of `group.notify`; one
that has not started has done neither. -/
def Link (g : Controller) (r : ℕ) : Option Call → Prop
  | none => g.completed.count r = 0 ∧ publishedBy g r = []
  | some c => c.Inv ∧ g.completed.count r = c.fetch.ran.length + c.alerted.length ∧
      publishedBy g r = c.fetch.ran.map fun _ => c.fetch.array

theorem link_apply_other {g : Controller} {r' : ℕ} {o : Option Call} (x : Effect) (hne : r' ≠ r)
    (h : Link g r' o) : Link (apply F r x g) r' o := by
  have hcount : (apply F r x g).completed.count r' = g.completed.count r' := by
    cases x <;> simp [apply, List.count_append, hne.symm]
  have hpub : publishedBy (apply F r x g) r' = publishedBy g r' := by
    cases x <;> simp [apply, publishedBy, entriesOf_append_ne hne]
  cases o <;> simpa only [Link, hcount, hpub] using h

theorem link_step {g : Controller} (h : Link g r (some c)) (hs : c.step F e = some (c', x)) :
    Link (apply F r x g) r (some c') := by
  obtain ⟨hinv, hcount, hpub⟩ := h
  have hstage := hinv.stage
  refine ⟨hinv.step hs, ?_⟩
  cases Call.step_moves hs with
  | background _ => exact ⟨hcount, hpub⟩
  | idsSuccess result ids ha hids =>
    simp only [Call.StageOk, ha] at hstage
    rw [hstage.1] at hcount hpub
    have hran : (c.success ids).fetch.ran = [] := FanIn.issueAll_ran _ _
    rw [hran]
    exact ⟨hcount, hpub⟩
  | idsFailure result error ha hids => exact ⟨hcount, hpub⟩
  | itemResponse k result hk =>
    -- a block of the group that has run leaves no request to answer
    have hran : c.fetch.ran = [] := by
      by_contra hne
      rw [hinv.fetch.requests_of_submitted (by simp [hne])] at hk
      simp at hk
    rw [FanIn.settle_eq]
    rw [hran] at hpub
    refine ⟨hcount, ?_⟩
    show publishedBy g r = c.fetch.ran.map fun _ => _
    rw [hran]
    exact hpub
  | notified b fetch hn =>
    obtain ⟨bs, hq, rfl⟩ := FanIn.next_eq_some.mp hn
    constructor
    · simp only [apply, complete_completed, List.count_append, hcount, List.count_singleton_self,
        List.length_append, List.length_singleton]
      omega
    · rw [publishedBy] at hpub
      simp [apply, publishedBy, hpub]
  | failed error alerts ha =>
    constructor
    · simp only [apply, complete_completed, List.count_append, hcount, List.count_singleton_self,
        List.length_append, List.length_singleton]
      omega
    · simpa [apply, publishedBy] using hpub

theorem links (h : Runs F es s) (r : ℕ) : Link s.ctrl r s.calls[r]? := by
  have hkeep : ∀ {n g u g' new r o}, (machine F).ui n g u = some (g', new) →
      Link g r o → Link g' r o := by
    intro n g u g' new r o hu ho
    obtain ⟨-, hpub, hcomp⟩ := ui_eq hu
    rcases o with _ | c <;> simpa only [Link, publishedBy, hpub, hcomp] using ho
  refine Machine.link_invariant (L := Link) (fun n g u g' new r o hu _ ho => hkeep hu ho) ?_
    (fun _ _ _ _ _ _ hl hs => link_step hl hs) (fun _ _ x _ _ hne hl => link_apply_other x hne hl)
    ?_ h r
  · intro n g u g' new i c hu hc h0
    have h1 := hkeep hu h0
    rcases (ui_eq hu).1 with rfl | ⟨b, rfl⟩
    · simp at hc
    · obtain rfl : c = reloadData b := List.mem_singleton.mp (List.mem_of_getElem? hc)
      exact ⟨reloadData_inv b, h1.1, h1.2⟩
  · exact fun _ => ⟨rfl, rfl⟩

/-! ### A reload and its own steps -/

/-- The response that a step of a reload takes in, by its position. -/
def response (F : Foundation) : CallEvent → Option (ℕ × Option Item)
  | .itemResponse k result => some (k, Network.itemOf F result)
  | _ => none

/-- The item responses that reload `r` takes in among the events, in their order. -/
def responses (F : Foundation) (r : ℕ) (es : List (Event UIEvent CallEvent)) :
    List (ℕ × Option Item) :=
  (eventsOf r es).filterMap (response F)

/-- What a reload has kept of the steps `l` it has made: the responses it has
taken in, and its stage, which is that of the response to its ids request. -/
structure Call.History (F : Foundation) (l : List CallEvent) (c : Call) : Prop where
  inv : c.Inv
  settled : c.fetch.settled = l.filterMap (response F)
  waiting : c.stage = .dispatched ∨ c.stage = .asking → ∀ result, .idsResponse result ∉ l
  answer : ∀ result, .idsResponse result ∈ l →
    c.stage = (Network.itemIdsOf result).elim .failing .fetching

theorem Call.History.step {l : List CallEvent} (h : c.History F l)
    (hs : c.step F e = some (c', x)) : c'.History F (l ++ [e]) := by
  have hinv' := h.inv.step hs
  have hstage := h.inv.stage
  have hsettled := h.settled
  cases Call.step_moves hs with
  | background hd =>
    have hno := h.waiting (Or.inl hd)
    refine ⟨hinv', ?_, fun _ result hr => ?_, fun result hr => ?_⟩
    · simpa [List.filterMap_cons, response] using hsettled
    · exact hno result (by simpa using hr)
    · exact absurd (by simpa using hr) (hno result)
  | idsSuccess result ids ha hids =>
    have hno := h.waiting (Or.inr ha)
    simp only [Call.StageOk, ha] at hstage
    refine ⟨hinv', ?_, fun hst => ?_, fun result' hr => ?_⟩
    · rw [hstage.1] at hsettled
      have hnone : (c.success ids).fetch.settled = [] := FanIn.issueAll_settled _ _
      simpa [response, hnone] using hsettled
    · simp [Call.success] at hst
    · obtain rfl : result' = result := by simpa [hno result'] using hr
      simp [Call.success, hids]
  | idsFailure result error ha hids =>
    have hno := h.waiting (Or.inr ha)
    refine ⟨hinv', ?_, fun hst => ?_, fun result' hr => ?_⟩
    · simpa [List.filterMap_cons, response, Call.failure] using hsettled
    · simp [Call.failure] at hst
    · obtain rfl : result' = result := by simpa [hno result'] using hr
      simp [Call.failure, hids]
  | itemResponse k result hk =>
    refine ⟨hinv', ?_, fun hst result' hr => ?_, fun result' hr => ?_⟩
    · simp [FanIn.settle_eq, hsettled, response]
    · exact h.waiting hst result' (by simpa using hr)
    · exact h.answer result' (by simpa using hr)
  | notified b fetch hn =>
    obtain ⟨bs, hq, rfl⟩ := FanIn.next_eq_some.mp hn
    refine ⟨hinv', ?_, fun hst result' hr => ?_, fun result' hr => ?_⟩
    · simpa [List.filterMap_cons, response] using hsettled
    · exact h.waiting hst result' (by simpa using hr)
    · exact h.answer result' (by simpa using hr)
  | failed error alerts ha =>
    refine ⟨hinv', ?_, fun hst result' hr => ?_, fun result' hr => ?_⟩
    · simpa [List.filterMap_cons, response] using hsettled
    · exact h.waiting hst result' (by simpa using hr)
    · exact h.answer result' (by simpa using hr)

theorem histories (h : Runs F es s) (hc : s.calls[r]? = some c) : c.History F (eventsOf r es) := by
  refine Machine.calls_history (H := Call.History F) ?_ (fun _ _ _ _ _ hl hs => hl.step hs) h hc
  intro n g u g' new hu d hd
  rcases (ui_eq hu).1 with rfl | ⟨b, rfl⟩
  · simp at hd
  · obtain rfl := List.mem_singleton.mp hd
    exact ⟨reloadData_inv b, rfl, fun _ _ => nofun, fun _ => nofun⟩

theorem settled_eq (h : Runs F es s) (hc : s.calls[r]? = some c) :
    c.fetch.settled = responses F r es :=
  (histories h hc).settled

/-! ### The fan-in of a reload -/

/-- A reload that has sent its item requests is past its ids. -/
theorem Call.Inv.fetching_of_registered (h : c.Inv) (hne : c.fetch.registered ≠ []) :
    ∃ ids, c.stage = .fetching ids := by
  have hstage := h.stage
  cases hst : c.stage with
  | fetching ids => exact ⟨ids, rfl⟩
  | _ =>
    simp only [Call.StageOk, hst] at hstage
    rw [hstage.1] at hne
    exact absurd rfl hne

/-- The block of `group.notify` runs the completion the reload was called with. -/
theorem Call.Inv.next_completion (h : c.Inv) {b : Completion} {fetch : Fetch Completion}
    (hn : c.fetch.next = some (b, fetch)) : b = c.completion := by
  obtain ⟨bs, hq, -⟩ := FanIn.next_eq_some.mp hn
  have hmem : b ∈ c.fetch.registered := h.fetch.blocks.mem_iff.mp (by simp [hq])
  obtain ⟨ids, hst⟩ := h.fetching_of_registered (List.ne_nil_of_mem hmem)
  have hstage := h.stage
  simp only [Call.StageOk, hst] at hstage
  rw [hstage.2.1] at hmem
  exact List.mem_singleton.mp hmem

/-- Once the block of a reload has been submitted, its responses are those of
every position of its ids, and its array is theirs. -/
theorem Call.Inv.delivery (h : c.Inv) {ids : List ℤ} (hst : c.stage = .fetching ids)
    (hne : c.fetch.queued ++ c.fetch.ran ≠ []) :
    ∃ d : Delivery ids.length Item, d.entries = c.fetch.settled ∧ d.array = c.fetch.array := by
  have hstage := h.stage
  simp only [Call.StageOk, hst] at hstage
  have hlen : c.fetch.issued.length = ids.length := by rw [hstage.1, List.length_map]
  have hreq := h.fetch.requests_of_submitted hne
  rw [← hlen]
  exact ⟨h.fetch.delivery hreq, rfl, h.fetch.delivery_array hreq⟩

theorem Call.Inv.ran_length_le (h : c.Inv) : c.fetch.ran.length + c.alerted.length ≤ 1 := by
  have hstage := h.stage
  have hle := h.fetch.ran_length_le
  cases hst : c.stage with
  | fetching ids =>
    simp only [Call.StageOk, hst] at hstage
    obtain ⟨-, hreg, -, hald⟩ := hstage
    rw [hreg, List.length_singleton] at hle
    simp only [hald, List.length_nil]
    omega
  | failing =>
    simp only [Call.StageOk, hst] at hstage
    obtain ⟨hf, hlen⟩ := hstage
    simp only [hf, List.length_nil]
    omega
  | _ =>
    simp only [Call.StageOk, hst] at hstage
    obtain ⟨hf, -, hald⟩ := hstage
    simp [hf, hald]

theorem Call.Inv.ran_length_of_quiet (h : c.Inv) (hq : c.Quiet) :
    c.fetch.ran.length + c.alerted.length = 1 := by
  obtain ⟨hd, ha, hreq, hqueued, hal⟩ := hq
  have hstage := h.stage
  cases hst : c.stage with
  | dispatched => exact absurd hst hd
  | asking => exact absurd hst ha
  | fetching ids =>
    simp only [Call.StageOk, hst] at hstage
    obtain ⟨-, hreg, -, hald⟩ := hstage
    have hran := (h.fetch.ran_perm hreq hqueued).length_eq
    simp [hran, hreg, hald]
  | failing =>
    simp only [Call.StageOk, hst] at hstage
    obtain ⟨hf, hlen⟩ := hstage
    simpa [hf, hal] using hlen

/-- With nothing left of a reload, it has completed. -/
theorem completed_of_quiet (h : Runs F es s) (hc : s.calls[r]? = some c) (hq : c.Quiet) :
    s.ctrl.completed.count r = 1 := by
  have hlink := links h r
  rw [hc] at hlink
  obtain ⟨hinv, hcount, -⟩ := hlink
  rw [hcount, hinv.ran_length_of_quiet hq]

/-- The stage of a reload whose ids came. -/
theorem stage_of_ids (h : Runs F es s) (hc : s.calls[r]? = some c) {result : Result Json}
    {ids : List ℤ} (hmem : .call r (.idsResponse result) ∈ es)
    (hids : Network.itemIdsOf result = some ids) : c.stage = .fetching ids := by
  have hanswer := (histories h hc).answer result (mem_eventsOf.mpr hmem)
  rwa [hids] at hanswer

/-- A reload that has ids has had them from its ids request. -/
theorem ids_of_stage (h : Runs F es s) (hc : s.calls[r]? = some c) {ids : List ℤ}
    (hst : c.stage = .fetching ids) :
    ∃ result, .call r (.idsResponse result) ∈ es ∧ Network.itemIdsOf result = some ids := by
  have hids : ∀ ids, c.stage = .fetching ids → ∃ result, .idsResponse result ∈ eventsOf r es ∧
      Network.itemIdsOf result = some ids := by
    refine Machine.calls_history (H := fun l (c : Call) => ∀ ids, c.stage = .fetching ids →
      ∃ result, .idsResponse result ∈ l ∧ Network.itemIdsOf result = some ids) ?_ ?_ h hc
    · intro n g u g' new hu d hd ids hst
      rcases (ui_eq hu).1 with rfl | ⟨b, rfl⟩
      · simp at hd
      · obtain rfl := List.mem_singleton.mp hd
        simp [reloadData] at hst
    · intro l c e c' x hl hs ids hst
      have hkeep : c'.stage = c.stage → ∃ result, .idsResponse result ∈ l ++ [e] ∧
          Network.itemIdsOf result = some ids := by
        intro hsame
        obtain ⟨result, hmem, hids⟩ := hl ids (hsame ▸ hst)
        exact ⟨result, List.mem_append_left _ hmem, hids⟩
      cases Call.step_moves hs with
      | background hd => simp at hst
      | idsSuccess result ids' ha hids =>
        obtain rfl := Stage.fetching.inj hst
        exact ⟨result, List.mem_append_right _ List.mem_cons_self, hids⟩
      | idsFailure result error ha hids => simp [Call.failure] at hst
      | itemResponse k result hk => exact hkeep rfl
      | notified b fetch hn => exact hkeep rfl
      | failed error alerts ha => exact hkeep rfl
  obtain ⟨result, hmem, heq⟩ := hids ids hst
  exact ⟨result, mem_eventsOf.mp hmem, heq⟩

/-- What a reload publishes is the array of the responses to its item requests. -/
theorem published_delivery (h : Runs F es s) {result : Result Json} {ids : List ℤ}
    (hmem : .call r (.idsResponse result) ∈ es) (hids : Network.itemIdsOf result = some ids)
    {array : List Item} (ha : array ∈ publishedBy s.ctrl r) :
    ∃ d : Delivery ids.length Item, d.entries = responses F r es ∧ d.array = array := by
  have hlink := links h r
  rcases hc : s.calls[r]? with _ | c
  · rw [hc] at hlink
    rw [hlink.2] at ha
    simp at ha
  · rw [hc] at hlink
    obtain ⟨hinv, -, hpub⟩ := hlink
    rw [hpub, List.mem_map] at ha
    obtain ⟨b, hb, rfl⟩ := ha
    obtain ⟨d, hd, hda⟩ := hinv.delivery (stage_of_ids h hc hmem hids)
      (List.append_ne_nil_of_right_ne_nil _ (List.ne_nil_of_mem hb))
    exact ⟨d, hd.trans (settled_eq h hc), hda⟩

/-- **The fan-in of a reload, among any others.** Its group's count is never
negative, and its block is not queued before each position of its ids has been
answered. Its completion runs at most once, and has run once when nothing of
the reload is left. If the ids came, it has sent a request for each, in their
order; it publishes at most once, and once by then, and what it publishes is
the array of its responses, one for each position, in the order they came. -/
theorem reload_fan_in (F : Foundation) {es : List (Event UIEvent CallEvent)} {s : State}
    (h : Runs F es s) {r : ℕ} {c : Call} (hc : s.calls[r]? = some c) :
    0 ≤ c.fetch.group.count ∧
    (c.fetch.queued ++ c.fetch.ran ≠ [] → c.fetch.requests = [] ∧ ∃ ids, c.stage = .fetching ids ∧
      ((responses F r es).map Prod.fst).Perm (List.range ids.length)) ∧
    s.ctrl.completed.count r ≤ 1 ∧
    (c.Quiet → s.ctrl.completed.count r = 1) ∧
    ∀ result ids, .call r (.idsResponse result) ∈ es → Network.itemIdsOf result = some ids →
      c.fetch.issued = ids.map Network.itemRequest ∧
      (publishedBy s.ctrl r).length ≤ 1 ∧
      (c.Quiet → (publishedBy s.ctrl r).length = 1) ∧
      ∀ array ∈ publishedBy s.ctrl r,
        ∃ d : Delivery ids.length Item, d.entries = responses F r es ∧ d.array = array := by
  have hlink := links h r
  rw [hc] at hlink
  obtain ⟨hinv, hcount, hpub⟩ := hlink
  refine ⟨hinv.fetch.count_nonneg, fun hne => ?_, ?_, fun hq => completed_of_quiet h hc hq,
    fun result ids hmem hids => ?_⟩
  · have hreg : c.fetch.registered ≠ [] :=
      hinv.fetch.registered_ne (by rw [List.append_assoc]; simp_all)
    obtain ⟨ids, hst⟩ := hinv.fetching_of_registered hreg
    obtain ⟨d, hd, -⟩ := hinv.delivery hst hne
    refine ⟨hinv.fetch.requests_of_submitted hne, ids, hst, ?_⟩
    rw [← settled_eq h hc, ← hd]
    exact d.perm
  · rw [hcount]
    exact hinv.ran_length_le
  · have hst := stage_of_ids h hc hmem hids
    have hstage := hinv.stage
    simp only [Call.StageOk, hst] at hstage
    obtain ⟨hissued, -, -, hald⟩ := hstage
    have hle := hinv.ran_length_le
    rw [hald, List.length_nil, Nat.add_zero] at hle
    refine ⟨hissued, ?_, fun hq => ?_, fun array ha => published_delivery h hmem hids ha⟩
    · rwa [hpub, List.length_map]
    · have hran := hinv.ran_length_of_quiet hq
      rw [hald, List.length_nil, Nat.add_zero] at hran
      rwa [hpub, List.length_map]

/-- Two reloads in flight: the second fails at its ids, the first at one of its two items. -/
def twoReloads : List (Event UIEvent CallEvent) :=
  [.ui .viewWillAppear, .ui .pullToRefresh, .call 0 .background, .call 1 .background,
    .call 0 (.idsResponse (Network.idsResult [1, 2])),
    .call 0 (.itemResponse 1 (Network.itemResult { id := some 2 })),
    .call 1 (.idsResponse (.failure (.alamofire "offline"))), .call 1 .failed,
    .call 0 (.itemResponse 0 (.failure (.alamofire "offline"))), .call 0 .notified]

theorem reload_fan_in_two : ∃ s c, Runs .plain twoReloads s ∧ s.calls[0]? = some c ∧ c.Quiet ∧
    s.ctrl.completed.count 0 = 1 ∧ publishedBy s.ctrl 0 = [[{ id := some 2 }]] := by
  refine ⟨_, _, rfl, rfl, by decide, ?_, rfl⟩
  exact (@reload_fan_in .plain twoReloads _ rfl 0 _ rfl).2.2.2.1 (by decide)

end ListViewController
end Workshop2018
