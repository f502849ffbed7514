/-
# Loads of one screen that overlap

`viewWillAppear` loads only while there are no comments, but that is tested
when a load starts and not when it publishes. Comments that are there stay, in
every continuation, if and only if each load is finished or has already
gathered those very comments (`kids_stay_iff`). So comments once published are
kept in the runs in which a load publishes them only when every other load is
finished or has gathered the same, and in general only in those (`kids_kept`).

Key definitions: `Load.Gathered`, `PublishesSame`.
Key theorems: `step_of_same`, `exists_publish`, `kids_stay_iff`, `kids_kept`.
-/
import Workshop2018.Screens.Progress

namespace Workshop2018
namespace DetailViewController

open Concurrent

variable {F : Foundation} {item : Item} {es : List (Event UIEvent LoadEvent)}
  {e : Event UIEvent LoadEvent} {s s' : State} {r : ℕ} {c c' : Load} {array : List Item}

/-! ### Loads that bring nothing new -/

/-- A load with no id left to send and no response to come, which has gathered `array`. -/
def Load.Gathered (array : List Item) (c : Load) : Prop :=
  (∀ t ∈ c.thread, t.left = []) ∧ c.fetch.requests = [] ∧ c.fetch.array = array

instance : Decidable (c.Gathered array) := by unfold Load.Gathered; infer_instance

/-- Each load is finished, or has gathered the comments that are there. -/
def BringsSame (array : List Item) (s : State) : Prop := ∀ c ∈ s.calls, c.Quiet ∨ c.Gathered array

/-- Nothing is left of a load whose block has run. -/
theorem Load.Inv.quiet_of_ran (h : c.Inv) (hne : c.fetch.ran ≠ []) : c.Quiet := by
  have hsub : c.fetch.queued ++ c.fetch.ran ≠ [] := List.append_ne_nil_of_right_ne_nil _ hne
  obtain ⟨ht, hreq, kids, hkids, -⟩ := h.submitted hsub
  have hok := h.thread kids hkids
  simp only [Load.ThreadOk, ht] at hok
  -- the one block registered is the one that has run
  have hblocks := h.fetch.blocks.length_eq
  have hpos := List.length_pos_iff.mpr hne
  simp only [List.length_append, hok.2, List.length_singleton] at hblocks
  exact ⟨ht, hreq, List.length_eq_zero_iff.mp (by omega)⟩

theorem call_inv (h : Runs F item es s) (hc : s.calls[r]? = some c) : c.Inv := by
  have hlink := links h r
  rw [hc] at hlink
  exact hlink.2.1

/-- A load that has gathered the comments goes on to publish them, and
publishes nothing else. -/
theorem Load.Gathered.step {e : LoadEvent} {x : Effect} (h : c.Gathered array) (hinv : c.Inv)
    (hs : c.step F e = some (c', x)) :
    (c'.Quiet ∨ c'.Gathered array) ∧ (x = .none ∨ ∃ b, x = .publish array b) := by
  obtain ⟨hleft, hreq, rfl⟩ := h
  have hinv' := hinv.step hs
  cases Load.step_moves hs with
  | enter id ids ht => cases hleft _ ht
  | request id ids ht => cases hleft _ ht
  | notify ht => exact ⟨Or.inr ⟨nofun, hreq, rfl⟩, Or.inl rfl⟩
  | itemResponse k result hk =>
    rw [hreq] at hk
    simp at hk
  | notified b fetch hn =>
    obtain ⟨bs, hq, rfl⟩ := FanIn.next_eq_some.mp hn
    exact ⟨Or.inl (hinv'.quiet_of_ran (by simp)), Or.inr ⟨b, rfl⟩⟩

/-- Where there are comments and each load is finished or has gathered them, no
step changes the comments or starts a load. -/
theorem step_of_same (hall : BringsSame s.ctrl.kids s) (hne : s.ctrl.kids ≠ [])
    (h : Runs F item es s) (hstep : (machine F).step s e = some s') :
    s'.ctrl.kids = s.ctrl.kids ∧ BringsSame s.ctrl.kids s' := by
  rcases e with ⟨⟨⟩⟩ | ⟨r, e⟩
  · rw [step_appear hstep, viewWillAppear_eq (item_eq h), if_neg hne]
    refine ⟨superViewWillAppear_kids _, ?_⟩
    simpa only [BringsSame, List.append_nil] using hall
  · obtain ⟨c, c', x, hc, hx, rfl⟩ := Machine.step_call.mp hstep
    have hx : c.step F e = some (c', x) := hx
    rcases hall c (List.mem_of_getElem? hc) with hq | hg
    · rw [hq.step_eq_none e] at hx
      simp at hx
    · obtain ⟨hc', heffect⟩ := hg.step (call_inv h hc) hx
      refine ⟨?_, fun d hd => ?_⟩
      · rcases heffect with rfl | ⟨b, rfl⟩
        · rfl
        · exact complete_kids r b _
      · rcases List.mem_or_eq_of_mem_set hd with hmem | rfl
        · exact hall d hmem
        · exact hc'

theorem kids_stay (hall : BringsSame s.ctrl.kids s) (hne : s.ctrl.kids ≠ []) (h : Runs F item es s)
    {post : List (Event UIEvent LoadEvent)} (hpost : run (machine F).step s post = some s') :
    s'.ctrl.kids = s.ctrl.kids ∧ BringsSame s.ctrl.kids s' := by
  refine run_history (P := fun _ u => u.ctrl.kids = s.ctrl.kids ∧ BringsSame s.ctrl.kids u)
    ⟨rfl, hall⟩ ?_ hpost
  intro post u e u' hu ih hstep
  have hrun : Runs F item (es ++ post) u := run_append_iff.mpr ⟨s, h, hu⟩
  obtain ⟨hkids, hsame⟩ := ih
  rw [← hkids] at hsame hne ⊢
  exact step_of_same hsame hne hrun hstep

/-! ### Loads that bring something else -/

/-- A step of one load, as a step of the screen. -/
theorem step_of_call {e : LoadEvent} {x : Effect} (hc : s.calls[r]? = some c)
    (hx : c.step F e = some (c', x)) :
    ∃ s', (machine F).step s (.call r e) = some s' ∧ s'.calls[r]? = some c' ∧
      s'.ctrl = apply r x s.ctrl := by
  refine ⟨_, Machine.step_call.mpr ⟨c, c', x, hc, hx, rfl⟩, ?_, rfl⟩
  rw [Machine.getElem?_set_call hc, if_pos rfl]

/-- The block goes on by itself, and gathers nothing. -/
theorem Load.background_step {t : Thread} (ht : c.thread = some t) :
    ∃ c', c.step F .background = some (c', .none) ∧ c'.fetch.array = c.fetch.array ∧
      c'.fetch.ran = c.fetch.ran := by
  rcases t with (_ | ⟨id, ids⟩) | ⟨id, ids⟩
  · exact ⟨{ c with thread := none, fetch := c.fetch.notify c.completion }, by simp [Load.step, ht],
      rfl, rfl⟩
  · exact ⟨{ c with thread := some (.request id ids), fetch := c.fetch.enter },
      by simp [Load.step, ht], rfl, rfl⟩
  · exact ⟨{ c with thread := some (.loop ids), fetch := c.fetch.issue (Network.itemRequest id) },
      by simp [Load.step, ht], rfl, rfl⟩

/-- A response to any request that is outstanding may come. -/
theorem Load.response_step {k : ℕ} (hk : k ∈ c.fetch.requests) (result : Result Json) :
    c.step F (.itemResponse k result) =
      some ({ c with fetch := c.fetch.settle k (Network.itemOf F result) }, .none) := by
  have hresp : Fetch.response F c.fetch k result =
      some (c.fetch.settle k (Network.itemOf F result)) := Fetch.response_eq_some.mpr ⟨hk, rfl⟩
  simp [Load.step, hresp]

/-- The screen goes on from a step of load `r`. -/
def Leads (F : Foundation) (s : State) (Q : State → Prop) : Prop :=
  ∃ es u, CallsOnly es ∧ run (machine F).step s es = some u ∧ Q u

theorem Leads.here {Q : State → Prop} (h : Q s) : Leads F s Q := ⟨[], s, nofun, rfl, h⟩

theorem Leads.step {Q : State → Prop} {e : LoadEvent}
    (hstep : (machine F).step s (.call r e) = some s') (h : Leads F s' Q) : Leads F s Q := by
  obtain ⟨es, u, hes, hrun, hQ⟩ := h
  refine ⟨.call r e :: es, u, ?_, by simp [run, hstep, hrun], hQ⟩
  rintro ev (_ | ⟨_, hev⟩)
  · exact ⟨r, e, rfl⟩
  · exact hes ev hev

theorem Leads.mono {P Q : State → Prop} (hPQ : ∀ u, P u → Q u) (h : Leads F s P) : Leads F s Q := by
  obtain ⟨es, u, hes, hrun, hP⟩ := h
  exact ⟨es, u, hes, hrun, hPQ u hP⟩

/-- With failures only, a load goes on to publish what it has gathered. -/
theorem exists_publish (h : Runs F item es s) (hc : s.calls[r]? = some c)
    (hkids : c.kids ≠ none) (hran : c.fetch.ran = []) :
    Leads F s fun u => u.ctrl.kids = c.fetch.array := by
  induction hn : c.rank using Nat.strong_induction_on generalizing es s c with
  | _ n ih =>
    have hinv := call_inv h hc
    -- what remains to be shown after each step but the last
    have hgo : ∀ {e c'}, c.step F e = some (c', .none) → c'.fetch.array = c.fetch.array →
        c'.fetch.ran = c.fetch.ran → Leads F s fun u => u.ctrl.kids = c.fetch.array := by
      intro e c' hx harray hran'
      obtain ⟨s', hstep, hc', -⟩ := step_of_call hc hx
      have hrun : Runs F item (es ++ [.call r e]) s' := run_snoc.mpr ⟨s, h, hstep⟩
      have hrank := Load.step_rank hx
      rw [← harray]
      exact (ih c'.rank (by omega) hrun hc' (Load.step_kids hx ▸ hkids) (hran'.trans hran) rfl).step
        hstep
    rcases ht : c.thread with _ | t
    · by_cases hreq : c.fetch.requests = []
      · rcases hqueued : c.fetch.queued with _ | ⟨b, bs⟩
        · -- a load with nothing left has run its block
          obtain ⟨kids, hk⟩ := Option.ne_none_iff_exists'.mp hkids
          have hlen := hinv.ran_length_of_quiet ⟨ht, hreq, hqueued⟩ hk
          simp [hran] at hlen
        · have hnext := FanIn.next_eq_some.mpr ⟨bs, hqueued, rfl⟩
          have hx : c.step F .notified =
              some ({ c with fetch := { c.fetch with queued := bs, ran := c.fetch.ran ++ [b] } },
                .publish c.fetch.array b) := by
            simp only [Load.step, hnext]
          obtain ⟨s', hstep, -, hctrl⟩ := step_of_call hc hx
          refine Leads.step hstep (Leads.here ?_)
          rw [hctrl]
          exact complete_kids r b _
      · obtain ⟨k, hk⟩ := List.exists_mem_of_ne_nil _ hreq
        refine hgo (Load.response_step hk (.failure (.alamofire ""))) ?_ ?_
        · rw [FanIn.settle_eq]
          exact List.append_nil _
        · rw [FanIn.settle_eq]
    · obtain ⟨c', hx, harray, hran'⟩ := Load.background_step (F := F) ht
      exact hgo hx harray hran'

/-- A load that awaits a response goes on to publish one more item than it has. -/
theorem exists_publish_response (h : Runs F item es s) (hc : s.calls[r]? = some c)
    (hkids : c.kids ≠ none) (hran : c.fetch.ran = []) (hreq : c.fetch.requests ≠ []) :
    Leads F s fun u => u.ctrl.kids = c.fetch.array ++ [({} : Item)] := by
  obtain ⟨k, hk⟩ := List.exists_mem_of_ne_nil _ hreq
  have hitem : Network.itemOf F (Network.itemResult {}) = some {} :=
    Network.itemOf_itemResult ⟨nofun, nofun, nofun, nofun⟩
  have hx := Load.response_step (F := F) hk (Network.itemResult {})
  rw [hitem, FanIn.settle_eq] at hx
  obtain ⟨s', hstep, hc', -⟩ := step_of_call hc hx
  exact (exists_publish (run_snoc.mpr ⟨s, h, hstep⟩) hc' hkids hran).step hstep

/-- So does one whose block is about to send a request. -/
theorem exists_publish_request {id : ℤ} {ids : List ℤ} (h : Runs F item es s)
    (hc : s.calls[r]? = some c) (hkids : c.kids ≠ none) (hran : c.fetch.ran = [])
    (ht : c.thread = some (.request id ids)) :
    Leads F s fun u => u.ctrl.kids = c.fetch.array ++ [({} : Item)] := by
  have hx : c.step F .background = some ({ c with
      thread := some (.loop ids), fetch := c.fetch.issue (Network.itemRequest id) }, .none) := by
    simp [Load.step, ht]
  obtain ⟨s', hstep, hc', -⟩ := step_of_call hc hx
  refine (exists_publish_response (run_snoc.mpr ⟨s, h, hstep⟩) hc' hkids hran ?_).step hstep
  simp [FanIn.issue]

/-- So does one whose block has still ids to send. -/
theorem exists_publish_left {t : Thread} (h : Runs F item es s) (hc : s.calls[r]? = some c)
    (hkids : c.kids ≠ none) (hran : c.fetch.ran = []) (ht : c.thread = some t)
    (hleft : t.left ≠ []) : Leads F s fun u => u.ctrl.kids = c.fetch.array ++ [({} : Item)] := by
  rcases t with (_ | ⟨id, ids⟩) | ⟨id, ids⟩
  · exact absurd rfl hleft
  · have hx : c.step F .background =
        some ({ c with thread := some (.request id ids), fetch := c.fetch.enter }, .none) := by
      simp [Load.step, ht]
    obtain ⟨s', hstep, hc', -⟩ := step_of_call hc hx
    exact (exists_publish_request (run_snoc.mpr ⟨s, h, hstep⟩) hc' hkids hran rfl).step hstep
  · exact exists_publish_request h hc hkids hran ht

/-- A load that is not finished and has not gathered `array` may publish something else. -/
theorem exists_publish_other (h : Runs F item es s) (hc : s.calls[r]? = some c) (hq : ¬ c.Quiet)
    (hg : ¬ c.Gathered array) : Leads F s fun u => u.ctrl.kids ≠ array := by
  have hinv := call_inv h hc
  have hran : c.fetch.ran = [] := by
    by_contra hne
    exact hq (hinv.quiet_of_ran hne)
  have hkids : c.kids ≠ none := by
    intro hnone
    obtain ⟨ht, hfetch⟩ := hinv.idle hnone
    exact hq ⟨ht, by rw [hfetch], by rw [hfetch]⟩
  by_cases harray : c.fetch.array = array
  swap
  · exact (exists_publish h hc hkids hran).mono fun u hu => hu.trans_ne harray
  have hmore : Leads F s fun u => u.ctrl.kids = c.fetch.array ++ [({} : Item)] := by
    by_cases hreq : c.fetch.requests = []
    · rcases ht : c.thread with _ | t
      · exact absurd ⟨by simp [ht], hreq, harray⟩ hg
      · refine exists_publish_left h hc hkids hran ht fun hleft => hg ⟨?_, hreq, harray⟩
        intro t' ht'
        obtain rfl : t = t' := by simpa [ht] using ht'
        exact hleft
    · exact exists_publish_response h hc hkids hran hreq
  refine hmore.mono fun u hu => ?_
  rw [hu, harray]
  simp

/-! ### When comments stay -/

/-- **When comments stay.** Comments that are there stay in every continuation
if and only if each load is finished or has gathered those same comments. -/
theorem kids_stay_iff (h : Runs F item es s) (hne : s.ctrl.kids ≠ []) :
    (∀ es' u, run (machine F).step s es' = some u → u.ctrl.kids = s.ctrl.kids) ↔
      BringsSame s.ctrl.kids s := by
  constructor
  · intro hstay c hmem
    by_contra hother
    rw [not_or] at hother
    obtain ⟨r, hc⟩ := List.mem_iff_getElem?.mp hmem
    obtain ⟨es', u, -, hrun, hu⟩ := exists_publish_other h hc hother.1 hother.2
    exact hu (hstay es' u hrun)
  · exact fun hall es' u hrun => (kids_stay hall hne h hrun).1

/-- They stay where the load that published them was the only one. -/
theorem kids_stay_iff_one : ∃ s, Runs .plain { kids := some [7] } loadsOne s ∧
    ∀ es' u, run (machine .plain).step s es' = some u → u.ctrl.kids = [{ id := some 7 }] := by
  refine ⟨_, rfl, ?_⟩
  exact (@kids_stay_iff .plain { kids := some [7] } loadsOne _ rfl nofun).mpr (by
    unfold BringsSame
    decide)

/-- A load that publishes comments finds every other load finished, or about
to publish the same. -/
def PublishesSame (s : State) (e : Event UIEvent LoadEvent) : Prop :=
  match e with
  | .call r .notified => ∀ c ∈ s.calls[r]?, c.fetch.array ≠ [] →
      ∀ r' < s.calls.length, r' ≠ r → ∀ c' ∈ s.calls[r']?, c'.Quiet ∨ c'.Gathered c.fetch.array
  | _ => True

instance (s : State) : ∀ e, Decidable (PublishesSame s e)
  | .ui .viewWillAppear => isTrue trivial
  | .call _ .background => isTrue trivial
  | .call _ (.itemResponse _ _) => isTrue trivial
  | .call _ .notified => by unfold PublishesSame; infer_instance

/-- Some load has published comments. -/
def HasPublished (s : State) : Prop := ∃ p ∈ s.ctrl.published, p.2 ≠ []

/-- A step of a load that publishes comments. -/
theorem step_publishes (h : Runs F item es s) (hstep : (machine F).step s e = some s')
    (hnew : HasPublished s') (hold : ¬ HasPublished s) :
    ∃ r c c', e = .call r .notified ∧ s.calls[r]? = some c ∧ s'.calls = s.calls.set r c' ∧
      c'.Quiet ∧ s'.ctrl.kids = c.fetch.array ∧ c.fetch.array ≠ [] := by
  rcases e with ⟨⟨⟩⟩ | ⟨r, e⟩
  · refine absurd ?_ hold
    have hpub : s'.ctrl.published = s.ctrl.published := by
      rw [step_appear hstep, viewWillAppear_eq (item_eq h)]
      split
      · dsimp only
        split <;> simp
      · simp
    rwa [HasPublished, hpub] at hnew
  · obtain ⟨c, c', x, hc, hx, rfl⟩ := Machine.step_call.mp hstep
    have hx : c.step F e = some (c', x) := hx
    have hinv' := (call_inv h hc).step hx
    cases Load.step_moves hx with
    | notified b fetch hn =>
      obtain ⟨bs, hq, rfl⟩ := FanIn.next_eq_some.mp hn
      have hkids : (apply r (.publish c.fetch.array b) s.ctrl).kids = c.fetch.array :=
        complete_kids r b _
      refine ⟨r, c, _, rfl, hc, rfl, hinv'.quiet_of_ran (by simp), hkids, fun hnil => hold ?_⟩
      obtain ⟨p, hp, hne⟩ := hnew
      have hp : p ∈ s.ctrl.published ++ [(r, c.fetch.array)] := by
        rwa [← complete_published r b]
      rcases List.mem_append.mp hp with hp | hp
      · exact ⟨p, hp, hne⟩
      · rw [List.mem_singleton.mp hp] at hne
        exact absurd hnil hne
    | _ => exact absurd hnew hold

/-- In runs where loads publish comments so, the other loads bring nothing new. -/
theorem brings_same (h : Runs F item es s) (hC : Along (machine F).step PublishesSame (prepared item) es) :
    HasPublished s → s.ctrl.kids ≠ [] ∧ BringsSame s.ctrl.kids s := by
  refine run_invariant_along (I := fun s => HasPublished s → s.ctrl.kids ≠ [] ∧
    BringsSame s.ctrl.kids s) ?_ ?_ hC h
  · rintro ⟨p, hp, -⟩
    cases hp
  · intro es s e s' hrun hs hsame hstep hnew
    by_cases hold : HasPublished s
    · obtain ⟨hne, hall⟩ := hs hold
      obtain ⟨hkids, hall'⟩ := step_of_same hall hne hrun hstep
      rw [hkids]
      exact ⟨hne, hall'⟩
    · obtain ⟨r, c, c', rfl, hc, hcalls, hq, hkids, hne⟩ := step_publishes hrun hstep hnew hold
      rw [hkids]
      refine ⟨hne, fun d hd => ?_⟩
      rw [hcalls] at hd
      obtain ⟨r', hr'⟩ := List.mem_iff_getElem?.mp hd
      rw [Machine.getElem?_set_call hc] at hr'
      by_cases hrr : r' = r
      · rw [if_pos hrr] at hr'
        obtain rfl := Option.some.inj hr'
        exact Or.inl hq
      · rw [if_neg hrr] at hr'
        exact hsame c hc hne r' (List.getElem?_eq_some_iff.mp hr').1 hrr d hr'

/-- **Comments once published stay, unless another load brings others.** In a
run in which a load publishes comments only when each of the other loads is
finished or has gathered the same, no step after a load has published comments
changes them. And a step that publishes comments otherwise has a continuation
that changes them. -/
theorem kids_kept (F : Foundation) (item : Item) :
    (∀ es s, Runs F item es s → Along (machine F).step PublishesSame (prepared item) es →
      ∀ before after t, es = before ++ after → Runs F item before t → HasPublished t →
        s.ctrl.kids = t.ctrl.kids) ∧
    ∀ es s r s', Runs F item es s → (machine F).step s (.call r .notified) = some s' →
      ¬ PublishesSame s (.call r .notified) →
      s'.ctrl.kids ≠ [] ∧ ∃ es' u, run (machine F).step s' es' = some u ∧
        u.ctrl.kids ≠ s'.ctrl.kids := by
  constructor
  · rintro es s h hC before after t rfl ht hpub
    obtain ⟨t', ht', hs⟩ := run_append_iff.mp h
    obtain rfl : t' = t := Option.some.inj (ht'.symm.trans ht)
    obtain ⟨hne, hall⟩ := brings_same ht (hC.of_prefix (List.prefix_append _ _)) hpub
    exact (kids_stay hall hne ht hs).1
  · intro es s r s' h hstep hother
    simp only [PublishesSame, not_forall] at hother
    obtain ⟨c, hc, hne, r', -, hrr, d, hd, hnot⟩ := hother
    rw [not_or] at hnot
    have hrun : Runs F item (es ++ [.call r .notified]) s' := run_snoc.mpr ⟨s, h, hstep⟩
    obtain ⟨c₀, c', x, hc₀, hx, rfl⟩ := Machine.step_call.mp hstep
    obtain rfl : c₀ = c := Option.some.inj (hc₀.symm.trans hc)
    have hx : c₀.step F .notified = some (c', x) := hx
    have hkids : (apply r x s.ctrl).kids = c₀.fetch.array := by
      cases Load.step_moves hx with
      | notified b fetch hn => exact complete_kids r b _
    have hd' : (s.calls.set r c')[r']? = some d := by
      rw [Machine.getElem?_set_call hc, if_neg hrr]
      exact hd
    obtain ⟨es', u, -, hrun', hu⟩ := exists_publish_other hrun hd' hnot.1 hnot.2
    refine ⟨?_, es', u, hrun', ?_⟩
    · show (apply r x s.ctrl).kids ≠ []
      rwa [hkids]
    · show u.ctrl.kids ≠ (apply r x s.ctrl).kids
      rwa [hkids]

/-- Two loads that gather the same comment; the screen appears once more when
one has published it. -/
def gatherSame : List (Event UIEvent LoadEvent) :=
  [.ui .viewWillAppear, .ui .viewWillAppear, .call 0 .background, .call 0 .background,
    .call 0 .background, .call 1 .background, .call 1 .background,
    .call 0 (.itemResponse 0 (Network.itemResult { id := some 7 })),
    .call 1 (.itemResponse 0 (Network.itemResult { id := some 7 })), .call 0 .notified]

/-- What follows them: the other load publishes too. -/
def appearsAgain : List (Event UIEvent LoadEvent) :=
  [.ui .viewWillAppear, .call 1 .background, .call 1 .notified]

/-- Two loads that have sent their requests, the first of which has its response. -/
def overlapping : List (Event UIEvent LoadEvent) :=
  [.ui .viewWillAppear, .ui .viewWillAppear, .call 0 .background, .call 0 .background,
    .call 0 .background, .call 1 .background, .call 1 .background, .call 1 .background,
    .call 0 (.itemResponse 0 (Network.itemResult { id := some 7 }))]

theorem kids_kept_again :
    (∃ t s, Runs .plain { kids := some [7] } gatherSame t ∧
      Runs .plain { kids := some [7] } (gatherSame ++ appearsAgain) s ∧
      t.ctrl.kids = [{ id := some 7 }] ∧ s.ctrl.kids = t.ctrl.kids) ∧
    ∃ s s' es' u, Runs .plain { kids := some [7] } overlapping s ∧
      (machine .plain).step s (.call 0 .notified) = some s' ∧
      run (machine .plain).step s' es' = some u ∧ u.ctrl.kids ≠ s'.ctrl.kids := by
  constructor
  · refine ⟨_, _, rfl, rfl, rfl, ?_⟩
    exact (kids_kept .plain { kids := some [7] }).1 (gatherSame ++ appearsAgain) _ rfl (by decide)
      gatherSame appearsAgain _ rfl rfl ⟨_, List.mem_singleton_self _, nofun⟩
  · obtain ⟨-, es', u, hrun, hu⟩ :=
      (kids_kept .plain { kids := some [7] }).2 overlapping _ 0 _ rfl rfl (by decide)
    exact ⟨_, _, es', u, rfl, rfl, hrun, hu⟩

/-- Two loads for one item: the first publishes its comment, the request of
the second fails, and the second publishes no comments. -/
theorem kids_replaced : ∃ t s,
    Runs .plain { kids := some [7] } (overlapping ++ [.call 0 .notified]) t ∧
    run (machine .plain).step t
      [.call 1 (.itemResponse 0 (.failure (.alamofire "offline"))), .call 1 .notified] = some s ∧
    publishedBy t.ctrl 0 = [[{ id := some 7 }]] ∧ t.ctrl.kids = [{ id := some 7 }] ∧
    s.ctrl.kids = [] := ⟨_, _, rfl, rfl, rfl, rfl, rfl⟩

end DetailViewController
end Workshop2018
