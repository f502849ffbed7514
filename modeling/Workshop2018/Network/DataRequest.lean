/-
# A data request, from the task it is sent with to its handlers

A `DataRequest` is sent as a task of a URL session, and again as another one
each time it is retried. The session's delegate is called back for a task on a
queue of its own: with the response, with the data as it comes, and once when
the task completes. It finds the request of a task in `requests`. A request
whose task completed runs its validations; if it has no error then, it is
complete: the operation queue of its handlers, suspended so far, starts. If it
has one, the retriers are asked in turn, and with the first that says yes the
request is retried after a delay; with none it is complete. A request that the
adapter refuses has no task, and its retriers are asked likewise.

Callbacks, retriers, the queues and the caller, which adds validations and
handlers to a request already sent, run independently; a step is one of them
going on. `retry` resumes the new task before it is registered in `requests`,
and both are steps.

Key definitions: `SessionManager`, `DataRequest`, `Event`, `DataRequest.step`.
-/
import Workshop2018.Lib.Runs
import Workshop2018.Network.Serialization

namespace Workshop2018
namespace Alamofire

open Concurrent

/-- What the requests of a session manager share: how many retriers its
`MultiRequestRetrier` has, and `JSONSerialization.jsonObject`. -/
structure SessionManager where
  retriers : ℕ
  jsonObject : Data → Except String Json

/-- A task, as the URL session has it. -/
structure URLSessionTask where
  response : Option HTTPURLResponse := none
  completed : Bool := false
  deriving DecidableEq, Repr

/-- A closure that is still to run: the block that asks the retriers about a
request the adapter refused; the answer of the retrier at an index, about the
error of a task, or of a request without one; the retry after the delay; and
the registration of the task that the retry has resumed. -/
inductive Pending
  | refused (error : NetworkError)
  | asking (index : ℕ) (task : Option ℕ) (error : NetworkError)
  | delayed (task : Option ℕ) (error : NetworkError)
  | registering
  deriving DecidableEq, Repr

/-- A request and what it shares with others, as far as it is its own: its
tasks, of which `task` is the one of its delegate and `registered` are those
that `requests` leads to it from; its validations; its delegate's error, data
and operation queue, with the handlers (`β`) the operations are for; the
closure that is still to run; and the handlers' blocks on the main queue. The
last field is history: the handlers that have run, with what they were given. -/
structure DataRequest (β : Type) where
  tasks : List URLSessionTask := []
  task : Option ℕ := none
  registered : List ℕ := []
  validations : List Validation := []
  error : Option NetworkError := none
  data : Data := []
  isSuspended : Bool := true
  operations : List β := []
  pending : Option Pending := none
  main : List (β × Result Json) := []
  retryCount : ℕ := 0
  delivered : List (β × Result Json) := []

/-- How a request can start: its URL is none, the adapter refuses it, or it
has a task. -/
inductive Start
  | invalid (error : NetworkError)
  | refused (error : NetworkError)
  | created

inductive Event (β : Type)
  | validate (validation : Validation)
  | response (handler : β)
  | didReceiveResponse (task : ℕ) (response : HTTPURLResponse)
  | didReceiveData (task : ℕ) (data : Data)
  | didComplete (task : ℕ) (error : Option NetworkError)
  | ask
  | answer (shouldRetry : Bool)
  | retry (adapted : Except NetworkError Unit)
  | register
  | operation
  | handler

namespace DataRequest

variable {β : Type}

/-- `sessionManager.request(_:)`: a task is registered and resumed. Without
one the request is resumed at once, which starts its operation queue, or a
block is dispatched that asks the retriers. -/
def request : Start → DataRequest β
  | .invalid error => { error := some error, isSuspended := false }
  | .refused error => { error := some error, pending := some (.refused error) }
  | .created => { tasks := [{}], task := some 0, registered := [0] }

/-- `task?.response`. -/
def taskResponse (q : DataRequest β) : Option HTTPURLResponse :=
  q.task.bind fun t => q.tasks[t]?.bind URLSessionTask.response

/-- What the operation of a handler makes of the request. -/
def result (m : SessionManager) (q : DataRequest β) : Result Json :=
  serializeResponseJSON m.jsonObject q.taskResponse (some q.data) q.error

/-- `resume()`, of a request whose task, if it has one, is already resumed. -/
def resume (q : DataRequest β) : DataRequest β :=
  if q.task = none then { q with isSuspended := false } else q

/-- `completeTask`: the delegate of the task's request takes the error, unless
it has one, and starts its operation queue; the task is forgotten. -/
def completeTask (t : ℕ) (error : Option NetworkError) (q : DataRequest β) : DataRequest β :=
  if t ∈ q.registered then
    { q with
      error := taskError q.error error
      isSuspended := false
      registered := q.registered.erase t }
  else q

/-- The request is not retried. -/
def giveUp (task : Option ℕ) (error : NetworkError) (q : DataRequest β) : DataRequest β :=
  match task with
  | some t => completeTask t (some error) { q with pending := none }
  | none => resume { q with pending := none }

/-- `MultiRequestRetrier.should`, from the retrier at an index on. -/
def should (m : SessionManager) (index : ℕ) (task : Option ℕ) (error : NetworkError)
    (q : DataRequest β) : DataRequest β :=
  if index < m.retriers then { q with pending := some (.asking index task error) }
  else giveUp task error q

/-- `urlSession(_:task:didCompleteWithError:)`, for a task that has just completed. -/
def didComplete (m : SessionManager) (t : ℕ) (error : Option NetworkError) (q : DataRequest β) :
    DataRequest β :=
  if t ∈ q.registered then
    let q := { q with error := runValidations q.taskResponse (some q.data) q.validations q.error }
    match taskError q.error error with
    | none => completeTask t none q
    | some e => should m 0 (some t) e q
  else completeTask t error q

/-- `retry(_:)`, with the new task the adapter allows: the old one is
forgotten, and the delegate is reset. -/
def retry (q : DataRequest β) : DataRequest β :=
  { q with
    tasks := q.tasks ++ [{}]
    task := some q.tasks.length
    registered := q.task.elim q.registered q.registered.erase
    error := none
    data := []
    retryCount := q.retryCount + 1
    pending := some .registering }

def step (m : SessionManager) (q : DataRequest β) : Event β → Option (DataRequest β)
  | .validate v => some { q with validations := q.validations ++ [v] }
  | .response h => some { q with operations := q.operations ++ [h] }
  | .didReceiveResponse t response =>
    match q.tasks[t]? with
    | some { completed := false, .. } =>
      some { q with tasks := q.tasks.set t { response := some response } }
    | _ => none
  | .didReceiveData t data =>
    match q.tasks[t]? with
    | some { completed := false, .. } =>
      if t ∈ q.registered then some { q with data := q.data ++ data } else some q
    | _ => none
  | .didComplete t error =>
    match q.tasks[t]? with
    | some { response, completed := false } =>
      some (didComplete m t error { q with tasks := q.tasks.set t { response, completed := true } })
    | _ => none
  | .ask =>
    match q.pending with
    | some (.refused error) => some (should m 0 none error q)
    | _ => none
  | .answer shouldRetry =>
    match q.pending with
    | some (.asking index task error) =>
      if shouldRetry then some { q with pending := some (.delayed task error) }
      else some (should m (index + 1) task error q)
    | _ => none
  | .retry adapted =>
    match q.pending with
    | some (.delayed task error) =>
      match adapted with
      | .error e => some (giveUp task error { q with error := some e })
      | .ok _ => some q.retry
    | _ => none
  | .register =>
    match q.pending with
    | some .registering =>
      some { q with registered := q.registered ++ q.task.toList, pending := none }
    | _ => none
  | .operation =>
    match q.isSuspended, q.operations with
    | false, h :: hs => some { q with operations := hs, main := q.main ++ [(h, q.result m)] }
    | _, _ => none
  | .handler =>
    match q.main with
    | p :: ps => some { q with main := ps, delivered := q.delivered ++ [p] }
    | [] => none

/-- The events `es` take the request from its start to `q`. -/
def Runs (m : SessionManager) (start : Start) (es : List (Event β)) (q : DataRequest β) : Prop :=
  run (step m) (request start) es = some q

end DataRequest

end Alamofire
end Workshop2018
