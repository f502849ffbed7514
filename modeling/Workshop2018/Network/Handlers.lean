/-
# What becomes of the handlers of a request

`Inv` says where a request stands: its tasks but the last have completed, only
the last may be registered, and a request whose operation queue runs has
nothing left that could change what its handlers are given. So each handler
runs at most once, after those added before it, and all of them are given the
same (`handlers_once`).

Whether they run at all depends on one race. A retry resumes its task before
it registers it, and a completion that comes in between finds no request: from
then on nothing starts the operation queue (`Lost`). Without it every handler
has run when nothing is left to happen; with it none ever does
(`handlers_run`). Where no retrier is asked, as in the app, no task is
resumed unregistered.

Key definitions: `Inv`, `handlersOf`, `AtRest`, `InTime`, `Lost`.
Key theorems: `Inv.step`, `handlers_once`, `handlers_run`, `inTime_of_no_retrier`.
-/
import Workshop2018.Lib.Progress
import Workshop2018.Network.DataRequest

namespace Workshop2018
namespace Alamofire
namespace DataRequest

open Concurrent

variable {β : Type} {m : SessionManager} {start : Start} {es : List (Event β)} {e : Event β}
  {q q' : DataRequest β} {t : ℕ} {task : Option ℕ} {error : NetworkError}

/-! ### What a step of a request does -/

/-- The steps of a request, each with what it needs and what it changes. -/
inductive Moves (m : SessionManager) (q : DataRequest β) : Event β → DataRequest β → Prop
  | validate (v : Validation) : Moves m q (.validate v) { q with validations := q.validations ++ [v] }
  | response (h : β) : Moves m q (.response h) { q with operations := q.operations ++ [h] }
  | didReceiveResponse (t : ℕ) (u : URLSessionTask) (response : HTTPURLResponse)
      (hu : q.tasks[t]? = some u) (hc : u.completed = false) :
      Moves m q (.didReceiveResponse t response)
        { q with tasks := q.tasks.set t { response := some response } }
  | didReceiveData (t : ℕ) (u : URLSessionTask) (data : Data) (hu : q.tasks[t]? = some u)
      (hc : u.completed = false) (hr : t ∈ q.registered) :
      Moves m q (.didReceiveData t data) { q with data := q.data ++ data }
  | dataLost (t : ℕ) (u : URLSessionTask) (data : Data) (hu : q.tasks[t]? = some u)
      (hc : u.completed = false) (hr : t ∉ q.registered) : Moves m q (.didReceiveData t data) q
  | didComplete (t : ℕ) (u : URLSessionTask) (error : Option NetworkError)
      (hu : q.tasks[t]? = some u) (hc : u.completed = false) :
      Moves m q (.didComplete t error)
        (didComplete m t error { q with tasks := q.tasks.set t { u with completed := true } })
  | ask (error : NetworkError) (hp : q.pending = some (.refused error)) :
      Moves m q .ask (should m 0 none error q)
  | yes (index : ℕ) (task : Option ℕ) (error : NetworkError)
      (hp : q.pending = some (.asking index task error)) :
      Moves m q (.answer true) { q with pending := some (.delayed task error) }
  | no (index : ℕ) (task : Option ℕ) (error : NetworkError)
      (hp : q.pending = some (.asking index task error)) :
      Moves m q (.answer false) (should m (index + 1) task error q)
  | refuse (task : Option ℕ) (error e : NetworkError) (hp : q.pending = some (.delayed task error)) :
      Moves m q (.retry (.error e)) (giveUp task error { q with error := some e })
  | retry (task : Option ℕ) (error : NetworkError) (hp : q.pending = some (.delayed task error)) :
      Moves m q (.retry (.ok ())) q.retry
  | register (hp : q.pending = some .registering) :
      Moves m q .register { q with registered := q.registered ++ q.task.toList, pending := none }
  | operation (h : β) (hs : List β) (hopen : q.isSuspended = false) (ho : q.operations = h :: hs) :
      Moves m q .operation { q with operations := hs, main := q.main ++ [(h, q.result m)] }
  | handler (p : β × Result Json) (ps : List (β × Result Json)) (hm : q.main = p :: ps) :
      Moves m q .handler { q with main := ps, delivered := q.delivered ++ [p] }

theorem step_moves (hstep : q.step m e = some q') : q.Moves m e q' := by
  unfold step at hstep
  split at hstep
  · cases hstep
    exact .validate _
  · cases hstep
    exact .response _
  · split at hstep
    · rename_i hu
      cases hstep
      exact .didReceiveResponse _ _ _ hu rfl
    · simp at hstep
  · split at hstep
    · rename_i hu
      split at hstep
      · rename_i hr
        cases hstep
        exact .didReceiveData _ _ _ hu rfl hr
      · rename_i hr
        cases hstep
        exact .dataLost _ _ _ hu rfl hr
    · simp at hstep
  · split at hstep
    · rename_i hu
      cases hstep
      exact .didComplete _ _ _ hu rfl
    · simp at hstep
  · split at hstep
    · rename_i hp
      cases hstep
      exact .ask _ hp
    · simp at hstep
  · split at hstep
    · rename_i shouldRetry _ _ _ _ hp
      cases shouldRetry with
      | true => cases hstep; exact .yes _ _ _ hp
      | false => cases hstep; exact .no _ _ _ hp
    · simp at hstep
  · split at hstep
    · rename_i hp
      split at hstep
      · cases hstep
        exact .refuse _ _ _ hp
      · cases hstep
        exact .retry _ _ hp
    · simp at hstep
  · split at hstep
    · rename_i hp
      cases hstep
      exact .register hp
    · simp at hstep
  · split at hstep
    · rename_i hs ho
      cases hstep
      exact .operation _ _ hs ho
    · simp at hstep
  · split at hstep
    · rename_i hm
      cases hstep
      exact .handler _ _ hm
    · simp at hstep

/-! ### Where a request stands -/

/-- Every task has completed. -/
def Ended (q : DataRequest β) : Prop := ∀ u ∈ q.tasks, u.completed = true

instance (q : DataRequest β) : Decidable q.Ended :=
  inferInstanceAs (Decidable (∀ u ∈ q.tasks, u.completed = true))

/-- The request's attempt has ended in an error, and it is not decided whether
there is another one. -/
def Stopped (q : DataRequest β) (task : Option ℕ) : Prop :=
  q.isSuspended = true ∧ q.task = task ∧ q.registered = task.toList ∧ q.Ended

/-- What the queue and the closure still to run go with. -/
def StageOk (q : DataRequest β) : Prop :=
  match q.isSuspended, q.pending with
  | false, pending => pending = none ∧ q.registered = [] ∧ q.Ended
  | true, none => ∃ t, q.task = some t ∧ q.registered = [t]
  | true, some (.refused _) => q.Stopped none
  | true, some (.asking _ task _) => q.Stopped task
  | true, some (.delayed task _) => q.Stopped task
  | true, some .registering => q.task ≠ none ∧ q.registered = []

structure Inv (q : DataRequest β) : Prop where
  task : q.task = if q.tasks = [] then none else some (q.tasks.length - 1)
  past : ∀ t u, q.tasks[t]? = some u → u.completed = false → q.task = some t
  stage : q.StageOk

theorem request_inv : ∀ start : Start, (request start : DataRequest β).Inv
  | .invalid error => ⟨rfl, by simp [request], rfl, rfl, by simp [Ended, request]⟩
  | .refused error => ⟨rfl, by simp [request], rfl, rfl, rfl, by simp [Ended, request]⟩
  | .created => by
    refine ⟨rfl, fun t u ht _ => ?_, 0, rfl, rfl⟩
    have hlt : t < 1 := (List.getElem?_eq_some_iff.mp ht).1
    obtain rfl : t = 0 := by omega
    rfl

/-! ### Each step keeps it -/

theorem Inv.of_open (h : q.Inv) (hs : q.isSuspended = false) :
    q.pending = none ∧ q.registered = [] ∧ q.Ended := by
  have hstage := h.stage
  unfold StageOk at hstage
  rw [hs] at hstage
  exact hstage

/-- A task that has not completed is the last one, and the attempt goes on. -/
theorem Inv.going (h : q.Inv) {u : URLSessionTask} (hu : q.tasks[t]? = some u)
    (hc : u.completed = false) : q.task = some t ∧ q.isSuspended = true ∧
      (q.pending = none ∧ q.registered = [t] ∨ q.pending = some .registering ∧ q.registered = []) := by
  have htask := h.past t u hu hc
  have hended : ¬ q.Ended := by
    intro hall
    rw [hall u (List.mem_of_getElem? hu)] at hc
    simp at hc
  have hstage := h.stage
  unfold StageOk at hstage
  split at hstage
  · exact absurd hstage.2.2 hended
  · rename_i hs hp
    obtain ⟨t', ht', hr⟩ := hstage
    obtain rfl := Option.some.inj (htask.symm.trans ht')
    exact ⟨htask, hs, Or.inl ⟨hp, hr⟩⟩
  · exact absurd hstage.2.2.2 hended
  · exact absurd hstage.2.2.2 hended
  · exact absurd hstage.2.2.2 hended
  · rename_i hs hp
    exact ⟨htask, hs, Or.inr ⟨hp, hstage.2⟩⟩

theorem Inv.suspended (h : q.Inv) (hp : q.pending ≠ none) : q.isSuspended = true := by
  by_contra hs
  exact hp (h.of_open (by simpa using hs)).1

/-- A closure about an ended attempt is still to run. -/
theorem Inv.stopped (h : q.Inv) :
    (∀ error, q.pending = some (.refused error) → q.Stopped none) ∧
    (∀ index task error, q.pending = some (.asking index task error) → q.Stopped task) ∧
    ∀ task error, q.pending = some (.delayed task error) → q.Stopped task := by
  have hstage := h.stage
  unfold StageOk at hstage
  split at hstage
  · rename_i hp
    simp [hstage.1]
  · simp_all
  · simp_all
  · simp_all
  · simp_all
  · simp_all

/-- The operation queue starts, and the request's task, if it has one, is forgotten. -/
theorem Stopped.giveUp_eq (h : q.Stopped task) : giveUp task error q =
    { q with pending := none, isSuspended := false, registered := [],
             error := task.elim q.error fun _ => taskError q.error (some error) } := by
  obtain ⟨-, htask, hreg, -⟩ := h
  rcases task with _ | t
  · have hresume : DataRequest.giveUp none error q =
        { q with pending := none, isSuspended := false } := if_pos htask
    rw [hresume]
    simpa using hreg
  · have hmem : t ∈ q.registered := by simp [hreg]
    have hcomplete : DataRequest.giveUp (some t) error q =
        { q with pending := none, error := taskError q.error (some error), isSuspended := false,
                 registered := q.registered.erase t } := if_pos hmem
    rw [hcomplete, hreg]
    simp

theorem Stopped.giveUp (h : q.Stopped task)
    (hlast : q.task = if q.tasks = [] then none else some (q.tasks.length - 1)) :
    (giveUp task error q).Inv := by
  rw [h.giveUp_eq]
  refine ⟨hlast, fun t u hu hc => ?_, rfl, rfl, h.2.2.2⟩
  rw [h.2.2.2 u (List.mem_of_getElem? hu)] at hc
  simp at hc

theorem Stopped.should (h : q.Stopped task) {index : ℕ}
    (hlast : q.task = if q.tasks = [] then none else some (q.tasks.length - 1)) :
    (should m index task error q).Inv := by
  unfold DataRequest.should
  by_cases hlt : index < m.retriers
  · rw [if_pos hlt]
    refine ⟨hlast, fun t u hu hc => ?_, ?_⟩
    · rw [h.2.2.2 u (List.mem_of_getElem? hu)] at hc
      simp at hc
    · simp only [StageOk, h.1]
      exact ⟨rfl, h.2⟩
  · rw [if_neg hlt]
    exact h.giveUp hlast

/-- The tasks of a request, one of them changed. -/
theorem past_set (h : q.Inv) {u u' : URLSessionTask} (hu : q.tasks[t]? = some u)
    (hc : u.completed = false) : ∀ i v, (q.tasks.set t u')[i]? = some v → v.completed = false →
      q.task = some i := by
  intro i v hv hvc
  by_cases hi : t = i
  · rw [← hi]
    exact h.past t u hu hc
  · rw [List.getElem?_set_ne hi] at hv
    exact h.past i v hv hvc

theorem ended_set (h : q.Inv) {u u' : URLSessionTask} (hu : q.tasks[t]? = some u)
    (hc : u.completed = false) (hc' : u'.completed = true) :
    ∀ v ∈ q.tasks.set t u', v.completed = true := by
  intro v hv
  by_contra hvc
  obtain ⟨i, hi⟩ := List.mem_iff_getElem?.mp hv
  have htask : q.task = some i := past_set h hu hc i v hi (by simpa using hvc)
  obtain rfl : t = i := Option.some.inj ((h.past t u hu hc).symm.trans htask)
  have hlt : t < q.tasks.length := (List.getElem?_eq_some_iff.mp hu).1
  rw [List.getElem?_set_self hlt] at hi
  obtain rfl := Option.some.inj hi
  exact hvc hc'

/-- A task that has not completed is sent a response. -/
theorem Inv.receive (h : q.Inv) {u u' : URLSessionTask} (hu : q.tasks[t]? = some u)
    (hc : u.completed = false) : ({ q with tasks := q.tasks.set t u' } : DataRequest β).Inv := by
  obtain ⟨htask, hs, hgo⟩ := h.going hu hc
  have hlast := h.task
  refine ⟨by simpa using hlast, past_set h hu hc, ?_⟩
  rcases hgo with ⟨hp, hr⟩ | ⟨hp, hr⟩
  · simp only [StageOk, hs, hp]
    exact ⟨t, htask, hr⟩
  · simp only [StageOk, hs, hp]
    exact ⟨by simp [htask], hr⟩

/-- A task completes: if the request is found the attempt has ended. -/
theorem Inv.didComplete (h : q.Inv) {u : URLSessionTask} (hu : q.tasks[t]? = some u)
    (hc : u.completed = false) (completion : Option NetworkError) {response : Option HTTPURLResponse} :
    (didComplete m t completion
      { q with tasks := q.tasks.set t { response, completed := true } }).Inv := by
  obtain ⟨htask, hs, hgo⟩ := h.going hu hc
  have hlast := h.task
  have hended : ∀ v ∈ q.tasks.set t { response, completed := true }, v.completed = true :=
    ended_set h hu hc rfl
  unfold DataRequest.didComplete
  rcases hgo with ⟨hp, hr⟩ | ⟨hp, hr⟩
  · have hmem : t ∈ q.registered := by simp [hr]
    rw [if_pos hmem]
    dsimp only
    split
    · unfold completeTask
      rw [if_pos hmem]
      refine ⟨by simpa using hlast, fun i v hv hvc => ?_, hp, by simp [hr], hended⟩
      rw [hended v (List.mem_of_getElem? hv)] at hvc
      simp at hvc
    · refine Stopped.should ?_ ?_
      · exact ⟨hs, htask, hr, hended⟩
      · simpa using hlast
  · have hmem : t ∉ q.registered := by simp [hr]
    unfold completeTask
    rw [if_neg hmem, if_neg hmem]
    exact h.receive hu hc

/-- The new task is the last one, and the old ones have completed. -/
theorem Stopped.retry (h : q.Stopped task) : q.retry.Inv := by
  obtain ⟨hs, htask, hreg, hended⟩ := h
  refine ⟨by simp [DataRequest.retry], fun i v hv hvc => ?_, ?_⟩
  · have hv : (q.tasks ++ [({} : URLSessionTask)])[i]? = some v := hv
    by_cases hlt : i < q.tasks.length
    · rw [List.getElem?_append_left hlt] at hv
      rw [hended v (List.mem_of_getElem? hv)] at hvc
      simp at hvc
    · have hi := (List.getElem?_eq_some_iff.mp hv).1
      rw [List.length_append, List.length_singleton] at hi
      obtain rfl : i = q.tasks.length := by omega
      rfl
  · simp only [StageOk, DataRequest.retry, hs]
    refine ⟨Option.some_ne_none _, ?_⟩
    rw [htask, hreg]
    rcases task with _ | t
    · rfl
    · simp

theorem Inv.register (h : q.Inv) (hp : q.pending = some .registering) :
    ({ q with registered := q.registered ++ q.task.toList, pending := none } : DataRequest β).Inv := by
  have hs := h.suspended (by simp [hp])
  have hstage := h.stage
  simp only [StageOk, hs, hp] at hstage
  obtain ⟨t, ht⟩ := Option.ne_none_iff_exists'.mp hstage.1
  refine ⟨h.task, h.past, ?_⟩
  simp only [StageOk, hs]
  exact ⟨t, ht, by rw [hstage.2, ht]; rfl⟩

theorem Inv.step (h : q.Inv) (hstep : q.step m e = some q') : q'.Inv := by
  cases step_moves hstep with
  | validate v => exact ⟨h.task, h.past, h.stage⟩
  | response handler => exact ⟨h.task, h.past, h.stage⟩
  | didReceiveResponse t u response hu hc => exact h.receive hu hc
  | didReceiveData t u data hu hc hr => exact ⟨h.task, h.past, h.stage⟩
  | dataLost t u data hu hc hr => exact h
  | didComplete t u completion hu hc => exact h.didComplete hu hc completion
  | ask error hp => exact (h.stopped.1 error hp).should h.task
  | yes index task error hp =>
    have hstopped := h.stopped.2.1 index task error hp
    refine ⟨h.task, h.past, ?_⟩
    simp only [StageOk, hstopped.1]
    exact ⟨rfl, hstopped.2⟩
  | no index task error hp => exact (h.stopped.2.1 index task error hp).should h.task
  | refuse task error e' hp =>
    have hstopped : ({ q with error := some e' } : DataRequest β).Stopped task :=
      h.stopped.2.2 task error hp
    exact hstopped.giveUp h.task
  | retry task error hp => exact (h.stopped.2.2 task error hp).retry
  | register hp => exact h.register hp
  | operation handler hs hopen ho => exact ⟨h.task, h.past, h.stage⟩
  | handler p ps hm => exact ⟨h.task, h.past, h.stage⟩

theorem inv (h : Runs m start es q) : q.Inv :=
  run_invariant (request_inv start) (fun _ _ _ ht hu => ht.step hu) h

/-! ### What the end of an attempt leaves as it was -/

section Kept

variable {γ : Type}

/-- What `f` reads of a request is none of what the end of an attempt changes. -/
def Kept (f : DataRequest β → γ) : Prop :=
  ∀ (q : DataRequest β) (error : Option NetworkError) (isSuspended : Bool) (registered : List ℕ)
    (pending : Option Pending), f { q with error, isSuspended, registered, pending } = f q

theorem kept_tasks : Kept (DataRequest.tasks : DataRequest β → List URLSessionTask) :=
  fun _ _ _ _ _ => rfl

theorem kept_operations : Kept (DataRequest.operations : DataRequest β → List β) :=
  fun _ _ _ _ _ => rfl

theorem kept_main : Kept (DataRequest.main : DataRequest β → List (β × Result Json)) :=
  fun _ _ _ _ _ => rfl

theorem kept_delivered : Kept (DataRequest.delivered : DataRequest β → List (β × Result Json)) :=
  fun _ _ _ _ _ => rfl

variable {f : DataRequest β → γ}

theorem Kept.completeTask (hf : Kept f) (t : ℕ) (completion : Option NetworkError) (q : DataRequest β) :
    f (completeTask t completion q) = f q := by
  unfold DataRequest.completeTask
  split
  · exact hf q _ false _ q.pending
  · rfl

theorem Kept.giveUp (hf : Kept f) (task : Option ℕ) (error : NetworkError) (q : DataRequest β) :
    f (giveUp task error q) = f q := by
  have hnone : f { q with pending := none } = f q := hf q q.error q.isSuspended q.registered none
  rcases task with _ | t
  · unfold DataRequest.giveUp resume
    dsimp only
    split
    · exact hf q q.error false q.registered none
    · exact hnone
  · exact (hf.completeTask t (some error) { q with pending := none }).trans hnone

theorem Kept.should (hf : Kept f) (index : ℕ) (task : Option ℕ) (error : NetworkError)
    (q : DataRequest β) : f (should m index task error q) = f q := by
  unfold DataRequest.should
  split
  · exact hf q q.error q.isSuspended q.registered _
  · exact hf.giveUp task error q

theorem Kept.didComplete (hf : Kept f) (t : ℕ) (completion : Option NetworkError) (q : DataRequest β) :
    f (didComplete m t completion q) = f q := by
  have hvalid (error : Option NetworkError) : f { q with error } = f q :=
    hf q error q.isSuspended q.registered q.pending
  unfold DataRequest.didComplete
  split
  · dsimp only
    split
    · exact (hf.completeTask t none _).trans (hvalid _)
    · exact (hf.should 0 (some t) _ _).trans (hvalid _)
  · exact hf.completeTask t completion q

end Kept

/-! ### The handlers -/

/-- The handlers added among the events, in order. -/
def handlersOf (es : List (Event β)) : List β :=
  es.filterMap fun
    | .response h => some h
    | _ => none

/-- What an end of the attempt leaves of the handlers: all of them. -/
structure SameHandlers (q q' : DataRequest β) : Prop where
  operations : q'.operations = q.operations
  main : q'.main = q.main
  delivered : q'.delivered = q.delivered

theorem giveUp_handlers (task : Option ℕ) (error : NetworkError) (q : DataRequest β) :
    SameHandlers q (giveUp task error q) :=
  ⟨kept_operations.giveUp task error q, kept_main.giveUp task error q, kept_delivered.giveUp task error q⟩

theorem should_handlers (index : ℕ) (task : Option ℕ) (error : NetworkError) (q : DataRequest β) :
    SameHandlers q (should m index task error q) :=
  ⟨kept_operations.should index task error q, kept_main.should index task error q,
    kept_delivered.should index task error q⟩

theorem didComplete_handlers (t : ℕ) (completion : Option NetworkError) (q : DataRequest β) :
    SameHandlers q (didComplete m t completion q) :=
  ⟨kept_operations.didComplete t completion q, kept_main.didComplete t completion q,
    kept_delivered.didComplete t completion q⟩

/-- A step that is not the handlers' own leaves them as they were. -/
theorem step_handlers (hstep : q.step m e = some q') : handlersOf [e] = [] ∧ e ≠ .handler ∧ SameHandlers q q' ∨
    (∃ h, e = .response h ∧ q' = { q with operations := q.operations ++ [h] }) ∨
    (∃ h hs, e = .operation ∧ q.isSuspended = false ∧ q.operations = h :: hs ∧
      q' = { q with operations := hs, main := q.main ++ [(h, q.result m)] }) ∨
    ∃ p ps, e = .handler ∧ q.main = p :: ps ∧
      q' = { q with main := ps, delivered := q.delivered ++ [p] } := by
  cases step_moves hstep with
  | response handler => exact Or.inr (Or.inl ⟨handler, rfl, rfl⟩)
  | operation handler hs hopen ho => exact Or.inr (Or.inr (Or.inl ⟨handler, hs, rfl, hopen, ho, rfl⟩))
  | handler p ps hm => exact Or.inr (Or.inr (Or.inr ⟨p, ps, rfl, hm, rfl⟩))
  | didComplete t u completion hu hc =>
    obtain ⟨ho, hm, hd⟩ := didComplete_handlers (m := m) t completion
      { q with tasks := q.tasks.set t { u with completed := true } }
    exact Or.inl ⟨rfl, nofun, ho, hm, hd⟩
  | ask error hp => exact Or.inl ⟨rfl, nofun, should_handlers 0 none error q⟩
  | no index task error hp => exact Or.inl ⟨rfl, nofun, should_handlers (index + 1) task error q⟩
  | refuse task error e' hp =>
    obtain ⟨ho, hm, hd⟩ := giveUp_handlers task error { q with error := some e' }
    exact Or.inl ⟨rfl, nofun, ho, hm, hd⟩
  | _ => exact Or.inl ⟨rfl, nofun, rfl, rfl, rfl⟩

/-- Nothing changes what the handlers of a complete request are given. -/
theorem Inv.step_open (h : q.Inv) (hs : q.isSuspended = false) (hstep : q.step m e = some q') :
    q'.isSuspended = false ∧ q'.error = q.error ∧ q'.result m = q.result m := by
  obtain ⟨hp, -, hended⟩ := h.of_open hs
  have hall : ∀ (t : ℕ) (u : URLSessionTask), q.tasks[t]? = some u → u.completed ≠ false := by
    intro t u hu
    rw [hended u (List.mem_of_getElem? hu)]
    simp
  cases step_moves hstep with
  | didReceiveResponse t u response hu hc => exact absurd hc (hall t u hu)
  | didReceiveData t u data hu hc hr => exact absurd hc (hall t u hu)
  | didComplete t u completion hu hc => exact absurd hc (hall t u hu)
  | ask error hp' => simp [hp] at hp'
  | yes index task error hp' => simp [hp] at hp'
  | no index task error hp' => simp [hp] at hp'
  | refuse task error e' hp' => simp [hp] at hp'
  | retry task error hp' => simp [hp] at hp'
  | register hp' => simp [hp] at hp'
  | _ => exact ⟨hs, rfl, rfl⟩

/-- What has become of the handlers that the events have added. -/
structure History (m : SessionManager) (es : List (Event β)) (q : DataRequest β) : Prop where
  order : q.delivered.map Prod.fst ++ (q.main.map Prod.fst ++ q.operations) = handlersOf es
  early : q.isSuspended = true → q.main = [] ∧ q.delivered = []
  given : ∀ p ∈ q.delivered ++ q.main, p.2 = q.result m

theorem History.step (h : History m es q) (hinv : q.Inv) (hstep : q.step m e = some q') :
    History m (es ++ [e]) q' := by
  have hadd : handlersOf (es ++ [e]) = handlersOf es ++ handlersOf [e] := List.filterMap_append
  have horder := h.order
  rcases step_handlers hstep with ⟨hnone, -, ho, hm, hd⟩ | ⟨handler, rfl, rfl⟩ |
    ⟨handler, hs, rfl, hopen, ho, rfl⟩ | ⟨p, ps, rfl, hm, rfl⟩
  · refine ⟨by rw [ho, hm, hd, hadd, hnone, List.append_nil, horder], fun hs' => ?_, fun p hp => ?_⟩
    · have hs : q.isSuspended = true := by
        by_contra hs
        rw [(hinv.step_open (by simpa using hs) hstep).1] at hs'
        simp at hs'
      rw [hm, hd]
      exact h.early hs
    · rw [hm, hd] at hp
      by_cases hs : q.isSuspended = true
      · obtain ⟨hmain, hdelivered⟩ := h.early hs
        simp [hmain, hdelivered] at hp
      · rw [(hinv.step_open (by simpa using hs) hstep).2.2]
        exact h.given p hp
  · refine ⟨?_, h.early, h.given⟩
    rw [hadd, ← horder]
    simp [handlersOf]
  · refine ⟨?_, fun hs' => ?_, fun p hp => ?_⟩
    · rw [hadd, ← horder, ho]
      simp [handlersOf]
    · have hs' : q.isSuspended = true := hs'
      rw [hopen] at hs'
      simp at hs'
    · have hp : p ∈ q.delivered ++ (q.main ++ [(handler, q.result m)]) := hp
      rw [← List.append_assoc, List.mem_append, List.mem_singleton] at hp
      rcases hp with hp | rfl
      · exact h.given p hp
      · rfl
  · refine ⟨?_, fun hs' => ?_, fun p' hp' => ?_⟩
    · rw [hadd, ← horder, hm]
      simp [handlersOf]
    · have hmain := (h.early hs').1
      rw [hm] at hmain
      simp at hmain
    · refine h.given p' ?_
      rw [hm]
      simpa using hp'

theorem history (h : Runs m start es q) : History m es q := by
  refine run_history (P := fun es (q : DataRequest β) => History m es q) ?_ ?_ h
  · rcases start with error | error | _ <;> exact ⟨rfl, fun _ => ⟨rfl, rfl⟩, nofun⟩
  · intro es q e q' hrun hq hstep
    exact hq.step (inv hrun) hstep

/-- **Each handler runs at most once.** The handlers that have run are those
added first, in the order they were added. None has run while the request is
not complete, and all are given what the complete request then has: the same
for all of them, also for those added later. -/
theorem handlers_once (h : Runs m start es q) :
    q.delivered.map Prod.fst <+: handlersOf es ∧
    (q.isSuspended = true → q.delivered = []) ∧
    (∀ p ∈ q.delivered, p.2 = q.result m) ∧
    ∀ es' q', run (step m) q es' = some q' → q.delivered <+: q'.delivered := by
  have hhist := history h
  refine ⟨⟨_, hhist.order⟩, fun hs => (hhist.early hs).2,
    fun p hp => hhist.given p (List.mem_append_left _ hp), fun es' q' hrun => ?_⟩
  refine run_invariant (I := fun q' => q.delivered <+: q'.delivered) List.prefix_rfl ?_ hrun
  intro t e u ht hstep
  rcases step_handlers hstep with ⟨-, -, -, -, hd⟩ | ⟨_, rfl, rfl⟩ | ⟨_, _, rfl, -, -, rfl⟩ |
    ⟨p, ps, rfl, -, rfl⟩
  · rwa [hd]
  · exact ht
  · exact ht
  · exact ht.trans (List.prefix_append _ _)

/-- A session manager with one retrier. -/
def oneRetrier : SessionManager := { retriers := 1, jsonObject := fun _ => .ok .null }

/-- A request whose first attempt is refused by its validation, retried, and
answered; its second handler is added when it is complete. -/
def retried : List (Event ℕ) :=
  [.validate validateStatusCode, .response 7, .didReceiveResponse 0 { statusCode := 503 },
    .didComplete 0 none, .answer true, .retry (.ok ()), .register,
    .didReceiveResponse 1 { statusCode := 200 }, .didReceiveData 1 [0x30], .didComplete 1 none,
    .response 8, .operation, .handler, .operation, .handler]

theorem handlers_once_retried : ∃ q, Runs oneRetrier .created retried q ∧
    q.delivered.map Prod.fst = [7, 8] ∧ q.delivered.map Prod.fst <+: handlersOf retried := by
  refine ⟨_, rfl, rfl, ?_⟩
  exact (@handlers_once ℕ oneRetrier .created retried _ rfl).1

/-! ### Whether they run -/

/-- The event takes the request on: it is not its caller's, not a callback
with a part of the response, and not the yes of a retrier. -/
def Winds : Event β → Prop
  | .validate _ | .response _ | .didReceiveResponse _ _ | .didReceiveData _ _ | .answer true => False
  | _ => True

/-- Nothing takes the request on. -/
def AtRest (m : SessionManager) (q : DataRequest β) : Prop := ∀ e, Winds e → q.step m e = none

/-- A task that completes is registered by then. -/
def InTime (q : DataRequest β) : Event β → Prop
  | .didComplete t _ => t ∈ q.registered
  | _ => True

instance (q : DataRequest β) : ∀ e, Decidable (InTime q e)
  | .didComplete t _ => inferInstanceAs (Decidable (t ∈ q.registered))
  | .validate _ | .response _ | .didReceiveResponse _ _ | .didReceiveData _ _ | .ask | .answer _
  | .retry _ | .register | .operation | .handler => isTrue trivial

/-- No callback of the request's task is to come, and the request is not complete. -/
def Lost (q : DataRequest β) : Prop :=
  q.isSuspended = true ∧ (q.pending = none ∨ q.pending = some .registering) ∧ q.Ended

theorem Stopped.not_lost_giveUp (h : q.Stopped task) : ¬ (DataRequest.giveUp task error q).Lost := by
  rw [h.giveUp_eq]
  rintro ⟨hs, -⟩
  simp at hs

theorem Stopped.not_lost_should (h : q.Stopped task) {index : ℕ} :
    ¬ (DataRequest.should m index task error q).Lost := by
  unfold DataRequest.should
  by_cases hlt : index < m.retriers
  · rw [if_pos hlt]
    rintro ⟨-, hp, -⟩
    simp at hp
  · rw [if_neg hlt]
    exact h.not_lost_giveUp

theorem Inv.lost_didComplete (h : q.Inv) {u : URLSessionTask} (hu : q.tasks[t]? = some u)
    (hc : u.completed = false) {completion : Option NetworkError} :
    (DataRequest.didComplete m t completion
      { q with tasks := q.tasks.set t { u with completed := true } }).Lost ↔ t ∉ q.registered := by
  obtain ⟨htask, hs, hgo⟩ := h.going hu hc
  have hended : ∀ v ∈ q.tasks.set t { u with completed := true }, v.completed = true :=
    ended_set h hu hc rfl
  unfold DataRequest.didComplete
  by_cases hmem : t ∈ q.registered
  · have hr : q.registered = [t] := by
      rcases hgo with ⟨-, hr⟩ | ⟨-, hr⟩
      · exact hr
      · simp [hr] at hmem
    rw [if_pos hmem]
    dsimp only
    refine iff_of_false ?_ (not_not_intro hmem)
    split
    · unfold completeTask
      rw [if_pos hmem]
      rintro ⟨hs, -⟩
      simp at hs
    · refine Stopped.not_lost_should ?_
      exact ⟨hs, htask, hr, hended⟩
  · have hp : q.pending = some .registering := by
      rcases hgo with ⟨-, hr⟩ | ⟨hp, -⟩
      · simp [hr] at hmem
      · exact hp
    unfold completeTask
    rw [if_neg hmem, if_neg hmem]
    exact iff_of_true ⟨hs, Or.inr hp, hended⟩ hmem

/-- A request is lost by a completion that is not in time, and for good. -/
theorem Inv.step_lost (h : q.Inv) (hstep : q.step m e = some q') :
    q'.Lost ↔ q.Lost ∨ ¬ InTime q e := by
  have hkeep : ∀ {p : Prop}, (p ↔ p ∨ ¬ True) := by simp
  have hgoing : ∀ (t : ℕ) (u : URLSessionTask), q.tasks[t]? = some u → u.completed = false → ¬ q.Lost := by
    intro t u hu hc hlost
    rw [hlost.2.2 u (List.mem_of_getElem? hu)] at hc
    simp at hc
  cases step_moves hstep with
  | didReceiveResponse t u response hu hc =>
    refine iff_of_false ?_ (by simp [hgoing t u hu hc, InTime])
    rintro ⟨-, -, hended⟩
    have hlt : t < q.tasks.length := (List.getElem?_eq_some_iff.mp hu).1
    have hnew := hended { response := some response } (List.mem_set hlt _)
    simp at hnew
  | didComplete t u completion hu hc =>
    rw [h.lost_didComplete hu hc]
    simp [hgoing t u hu hc, InTime]
  | ask error hp =>
    have hstopped := h.stopped.1 error hp
    exact iff_of_false hstopped.not_lost_should (by simp [Lost, hp, InTime])
  | yes index task error hp => exact iff_of_false (by simp [Lost]) (by simp [Lost, hp, InTime])
  | no index task error hp =>
    have hstopped := h.stopped.2.1 index task error hp
    exact iff_of_false hstopped.not_lost_should (by simp [Lost, hp, InTime])
  | refuse task error e' hp =>
    have hstopped : ({ q with error := some e' } : DataRequest β).Stopped task :=
      h.stopped.2.2 task error hp
    exact iff_of_false hstopped.not_lost_giveUp (by simp [Lost, hp, InTime])
  | retry task error hp =>
    refine iff_of_false ?_ (by simp [Lost, hp, InTime])
    rintro ⟨-, -, hended⟩
    have hnew := hended {} (by simp [DataRequest.retry])
    simp at hnew
  | register hp => simp [Lost, hp, Ended, InTime]
  | _ => exact hkeep

theorem not_lost_request : ∀ start : Start, ¬ (request start : DataRequest β).Lost
  | .invalid error => by simp [Lost, request]
  | .refused error => by simp [Lost, request]
  | .created => by simp [Lost, request, Ended]

theorem lost_iff (h : Runs m start es q) :
    q.Lost ↔ ¬ Along (step m) InTime (request start) es := by
  refine run_history (P := fun es (q : DataRequest β) =>
    q.Lost ↔ ¬ Along (step m) InTime (request start) es) ?_ ?_ h
  · refine iff_of_false (not_lost_request start) (not_not_intro ?_)
    intro pre e post t he
    simp at he
  · intro es q e q' hrun hq hstep
    rw [(inv hrun).step_lost hstep, hq, ← not_and_or, along_snoc hrun]

/-- Where nothing is left to happen, the request is lost, or it is complete
and its handlers have run. -/
theorem AtRest.lost_or (hrest : q.AtRest m) (h : q.Inv) :
    q.Lost ∨ q.isSuspended = false ∧ q.operations = [] ∧ q.main = [] := by
  have hstage := h.stage
  unfold StageOk at hstage
  split at hstage
  · rename_i hs
    refine Or.inr ⟨hs, ?_, ?_⟩
    · rcases ho : q.operations with _ | ⟨handler, hs'⟩
      · rfl
      · have hnone := hrest .operation trivial
        simp [DataRequest.step, hs, ho] at hnone
    · rcases hm : q.main with _ | ⟨p, ps⟩
      · rfl
      · have hnone := hrest .handler trivial
        simp [DataRequest.step, hm] at hnone
  · rename_i hs hp
    obtain ⟨t, htask, hr⟩ := hstage
    refine Or.inl ⟨hs, Or.inl hp, fun u hu => ?_⟩
    by_contra hc
    obtain ⟨i, hi⟩ := List.mem_iff_getElem?.mp hu
    have hnone := hrest (.didComplete i none) trivial
    rcases u with ⟨response, _ | _⟩
    · simp [DataRequest.step, hi] at hnone
    · simp at hc
  · rename_i error hs hp
    have hnone := hrest .ask trivial
    simp [DataRequest.step, hp] at hnone
  · rename_i index task error hs hp
    have hnone := hrest (.answer false) trivial
    simp [DataRequest.step, hp] at hnone
  · rename_i task error hs hp
    have hnone := hrest (.retry (.ok ())) trivial
    simp [DataRequest.step, hp] at hnone
  · rename_i hs hp
    have hnone := hrest .register trivial
    simp [DataRequest.step, hp] at hnone

theorem completeTask_pending (t : ℕ) (completion : Option NetworkError) (q : DataRequest β) :
    (completeTask t completion q).pending = q.pending := by
  unfold completeTask
  split <;> rfl

theorem giveUp_pending (task : Option ℕ) (error : NetworkError) (q : DataRequest β) :
    (giveUp task error q).pending = none := by
  rcases task with _ | t
  · unfold giveUp resume
    dsimp only
    split <;> rfl
  · exact completeTask_pending t (some error) { q with pending := none }

theorem should_of_no_retrier (hm : m.retriers = 0) (index : ℕ) :
    should m index task error q = giveUp task error q := by
  unfold should
  rw [if_neg (by omega)]

/-- Without retriers no request is retried. -/
theorem pending_of_no_retrier (hm : m.retriers = 0) (h : Runs m start es q) :
    q.pending = none ∨ ∃ error, q.pending = some (.refused error) := by
  refine run_history (P := fun _ (q : DataRequest β) =>
    q.pending = none ∨ ∃ error, q.pending = some (.refused error)) ?_ ?_ h
  · rcases start with error | error | _
    · exact Or.inl rfl
    · exact Or.inr ⟨error, rfl⟩
    · exact Or.inl rfl
  · intro es q e q' hrun hq hstep
    cases step_moves hstep with
    | didComplete t u completion hu hc =>
      unfold didComplete
      split
      · dsimp only
        split
        · rwa [completeTask_pending]
        · rw [should_of_no_retrier hm]
          exact Or.inl (giveUp_pending _ _ _)
      · rwa [completeTask_pending]
    | ask error hp =>
      rw [should_of_no_retrier hm]
      exact Or.inl (giveUp_pending _ _ _)
    | yes index task error hp => simp [hp] at hq
    | no index task error hp => simp [hp] at hq
    | refuse task error e' hp => simp [hp] at hq
    | retry task error hp => simp [hp] at hq
    | register hp => simp [hp] at hq
    | _ => exact hq

theorem inTime_of_no_retrier (hm : m.retriers = 0) (h : Runs m start es q) :
    Along (step m) InTime (request start) es := by
  refine run_history (P := fun es (q : DataRequest β) =>
    Along (step m) InTime (request start) es) ?_ ?_ h
  · intro pre e post t he
    simp at he
  · intro es q e q' hrun hq hstep
    refine (along_snoc hrun).mpr ⟨hq, ?_⟩
    cases step_moves hstep with
    | didComplete t u completion hu hc =>
      rcases ((inv hrun).going hu hc).2.2 with ⟨-, hr⟩ | ⟨hp, -⟩
      · simp [InTime, hr]
      · have hpend := pending_of_no_retrier hm hrun
        simp [hp] at hpend
    | _ => trivial

/-- With nothing left to happen, every handler has run if no completion was late. -/
theorem all_run (h : Runs m start es q) (hrest : q.AtRest m)
    (hin : Along (step m) InTime (request start) es) : q.delivered.map Prod.fst = handlersOf es := by
  rcases hrest.lost_or (inv h) with hl | ⟨-, ho, hm⟩
  · exact absurd hin ((lost_iff h).mp hl)
  · rw [← (history h).order, ho, hm]
    simp

/-- The second attempt completes before its task is registered: nothing is
left to happen, and the handler never runs. -/
example : ∃ q, Runs oneRetrier .created
    [.response 7, .didComplete 0 (some (.system "offline")), .answer true, .retry (.ok ()),
      .didComplete 1 none, .register] q ∧ q.Lost ∧ q.operations = [7] := by
  exact ⟨_, rfl, ⟨rfl, Or.inl rfl, by decide⟩, rfl⟩

/-! ### A request left alone -/

def Pending.rank (m : SessionManager) : Option Pending → ℕ
  | none => 0
  | some .registering => 1
  | some (.asking index _ _) => m.retriers - index + 1
  | some (.refused _) => m.retriers + 2
  | some (.delayed _ _) => m.retriers + 4

/-- What is left to happen to a request that no retrier has retried: the
completions of its tasks, after each of which the retriers are asked; the rest
of the asking; and its handlers. -/
def rank (m : SessionManager) (q : DataRequest β) : ℕ :=
  q.tasks.countP (!·.completed) * (m.retriers + 2) + Pending.rank m q.pending +
    (2 * q.operations.length + q.main.length)

theorem should_pending_le (index : ℕ) (task : Option ℕ) (error : NetworkError) (q : DataRequest β) :
    Pending.rank m (should m index task error q).pending ≤ m.retriers - index + 1 ∧
    (m.retriers ≤ index → Pending.rank m (should m index task error q).pending = 0) := by
  unfold should
  by_cases hlt : index < m.retriers
  · rw [if_pos hlt]
    exact ⟨le_rfl, fun hle => by omega⟩
  · rw [if_neg hlt, giveUp_pending]
    exact ⟨Nat.zero_le _, fun _ => rfl⟩

/-- A task's completion is one completion less to come. -/
theorem countP_set {u : URLSessionTask} (hu : q.tasks[t]? = some u) (hc : u.completed = false) :
    (q.tasks.set t { u with completed := true }).countP (!·.completed) + 1 =
      q.tasks.countP (!·.completed) := by
  obtain ⟨hlt, rfl⟩ := List.getElem?_eq_some_iff.mp hu
  have hpos : 0 < q.tasks.countP (!·.completed) :=
    List.countP_pos_iff.mpr ⟨q.tasks[t], List.getElem_mem hlt, by simp [hc]⟩
  rw [List.countP_set hlt]
  simp only [hc, Bool.not_false, Bool.not_true, if_true, Bool.false_eq_true, if_false]
  omega

theorem didComplete_pending_le (t : ℕ) (completion : Option NetworkError) (q : DataRequest β) :
    Pending.rank m (didComplete m t completion q).pending ≤
      Pending.rank m q.pending + (m.retriers + 1) := by
  unfold didComplete
  split
  · dsimp only
    split
    · rw [completeTask_pending]
      exact Nat.le_add_right _ _
    · rename_i error _
      have hle := (should_pending_le (m := m) 0 (some t) error
        { q with error := runValidations q.taskResponse (some q.data) q.validations q.error }).1
      omega
  · rw [completeTask_pending]
    exact Nat.le_add_right _ _

/-- The rank of a request whose handlers are as they were. -/
theorem SameHandlers.rank_eq (h : SameHandlers q q') : q'.rank m =
    q'.tasks.countP (!·.completed) * (m.retriers + 2) + Pending.rank m q'.pending +
      (2 * q.operations.length + q.main.length) := by
  rw [rank, h.operations, h.main]

/-- Unless a retrier says yes, a request does not go on for ever. -/
theorem lowers (m : SessionManager) : Lowers (step m) (Winds : Event β → Prop) (rank m) := by
  intro q e q' he hstep
  cases step_moves hstep with
  | validate v => exact he.elim
  | response handler => exact he.elim
  | didReceiveResponse t u response hu hc => exact he.elim
  | didReceiveData t u data hu hc hr => exact he.elim
  | dataLost t u data hu hc hr => exact he.elim
  | yes index task error hp => exact he.elim
  | didComplete t u completion hu hc =>
    have hcount := countP_set hu hc
    have hpend := didComplete_pending_le (m := m) t completion
      { q with tasks := q.tasks.set t { u with completed := true } }
    have hsame := didComplete_handlers (m := m) t completion
      { q with tasks := q.tasks.set t { u with completed := true } }
    rw [hsame.rank_eq, kept_tasks.didComplete, rank, ← hcount, Nat.add_mul]
    dsimp only at hpend ⊢
    omega
  | ask error hp =>
    have hpend := (should_pending_le (m := m) 0 none error q).1
    rw [(should_handlers 0 none error q).rank_eq, kept_tasks.should, rank, hp]
    simp only [Pending.rank] at hpend ⊢
    omega
  | no index task error hp =>
    obtain ⟨hle, hzero⟩ := should_pending_le (m := m) (index + 1) task error q
    rw [(should_handlers (index + 1) task error q).rank_eq, kept_tasks.should, rank, hp]
    simp only [Pending.rank] at hle hzero ⊢
    by_cases hlt : m.retriers ≤ index + 1
    · rw [hzero hlt]
      omega
    · omega
  | refuse task error e' hp =>
    have hsame := giveUp_handlers task error { q with error := some e' }
    rw [hsame.rank_eq, kept_tasks.giveUp, giveUp_pending, rank, hp]
    simp only [Pending.rank]
    omega
  | retry task error hp =>
    have hcount : q.retry.tasks.countP (!·.completed) = q.tasks.countP (!·.completed) + 1 := by
      simp [DataRequest.retry]
    have hsame : SameHandlers q q.retry := ⟨rfl, rfl, rfl⟩
    rw [hsame.rank_eq, hcount, rank, hp, Nat.add_mul]
    simp only [Pending.rank, DataRequest.retry]
    omega
  | register hp =>
    simp only [rank, hp, Pending.rank]
    omega
  | operation handler hs hopen ho =>
    simp only [rank, ho, List.length_cons, List.length_append, List.length_nil]
    omega
  | handler p ps hm =>
    simp only [rank, hm, List.length_cons]
    omega

end DataRequest
end Alamofire
end Workshop2018
