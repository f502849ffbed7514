/-
# The requests of `Network`

Both requests are made by one chain of calls,
`request(path).validate().responseJSON(completionHandler:)`. The first sends
the request, and the others run while it may already be answered: a task that
completes before `validate()` has added its two validations is not validated.

With a session manager that asks no retrier a request so made gives its
closure one result, whatever its start and its callbacks (`once`, `given_of_rest`):
a success only if the task completed without an error, the response has a
status code that `validate()` accepts, or came too early for it, and the data
is a value or the status code says that there is none (`network_result`).

Key definitions: `sessionManager`, `chain`, `Sending`, `Sending.step`, `Sending.Inv`, `service`.
Key theorems: `once`, `given_of_rest`, `network_result`.
-/
import Workshop2018.Lib.Service
import Workshop2018.Network.Attempts

namespace Workshop2018
namespace Network

open Concurrent Alamofire

/-- `sessionManager`, whose `MultiRequestRetrier` has no retrier. -/
def sessionManager (jsonObject : Data → Except String Json) : SessionManager :=
  { retriers := 0, jsonObject }

/-- `.validate().responseJSON(…)`: two validations, and a handler. The request
has no `Accept` header. -/
def chain : List (Alamofire.Event Unit) :=
  [.validate validateStatusCode, .validate (validateContentType (acceptableContentTypes none)),
    .response ()]

/-- A request and the number of calls of its chain that have been made. `log`
is history: the events of the request. -/
structure Sending where
  made : ℕ := 0
  request : DataRequest Unit
  log : List (Alamofire.Event Unit) := []

/-- The next call of the chain, or a step of the request. -/
inductive SendingEvent
  | call
  | request (e : Alamofire.Event Unit)

def isCaller : Alamofire.Event Unit → Bool
  | .validate _ | .response _ => true
  | _ => false

namespace Sending

variable (m : SessionManager)

def start (start : Start) : Sending := { request := DataRequest.request start }

/-- The result that the handler has been given. -/
def given (s : Sending) : Option (Result Json) := s.request.delivered.head?.map Prod.snd

/-- The result that a step of the request hands to the closure: that of the handler it runs. -/
def answerOf : Alamofire.Event Unit → DataRequest Unit → Option (Result Json)
  | .handler, q => q.delivered.getLast?.map Prod.snd
  | _, _ => none

def step (s : Sending) : SendingEvent → Option (Sending × Option (Result Json))
  | .call =>
    match chain[s.made]? with
    | none => none
    | some e =>
      (s.request.step m e).map fun request =>
        ({ made := s.made + 1, request, log := s.log ++ [e] }, none)
  | .request e =>
    if isCaller e then none
    else (s.request.step m e).map fun request =>
      ({ s with request, log := s.log ++ [e] }, answerOf e request)

end Sending

/-- What a session manager makes of the requests of `Network`, where `start`
says how the request for a path starts. -/
def service (m : SessionManager) (start : String → Start) :
    Service Request (Result Json) Sending SendingEvent where
  start request := Sending.start (start request.path)
  step := Sending.step m

namespace Sending

variable {m : SessionManager} {st : Start} {s s' : Sending} {ev : SendingEvent}
  {o : Option (Result Json)} {e : Alamofire.Event Unit}

/-- The request is in a run from its start, in which the chain has made its calls so far. -/
structure Inv (m : SessionManager) (st : Start) (s : Sending) : Prop where
  runs : DataRequest.Runs m st s.log s.request
  calls : s.log.filter isCaller = chain.take s.made

theorem inv_start (m : SessionManager) (st : Start) : (start st).Inv m st := ⟨rfl, rfl⟩

theorem isCaller_of_chain (hcall : chain[s.made]? = some e) : isCaller e = true := by
  have hall : ∀ e ∈ chain, isCaller e = true := by simp [chain, isCaller]
  exact hall e (List.mem_of_getElem? hcall)

theorem step_cases (h : s.step m ev = some (s', o)) :
    (∃ e request, ev = .call ∧ chain[s.made]? = some e ∧ s.request.step m e = some request ∧
      s' = { made := s.made + 1, request, log := s.log ++ [e] } ∧ o = none) ∨
    ∃ e request, ev = .request e ∧ isCaller e = false ∧ s.request.step m e = some request ∧
      s' = { s with request, log := s.log ++ [e] } ∧ o = answerOf e request := by
  rcases ev with _ | e
  · simp only [step] at h
    split at h
    · simp at h
    · rename_i e hcall
      obtain ⟨request, hq, heq⟩ := Option.map_eq_some_iff.mp h
      obtain ⟨rfl, rfl⟩ := Prod.mk.inj heq
      exact Or.inl ⟨e, request, rfl, hcall, hq, rfl, rfl⟩
  · simp only [step] at h
    split at h
    · simp at h
    · rename_i hcaller
      obtain ⟨request, hq, heq⟩ := Option.map_eq_some_iff.mp h
      obtain ⟨rfl, rfl⟩ := Prod.mk.inj heq
      exact Or.inr ⟨e, request, rfl, by simpa using hcaller, hq, rfl, rfl⟩

theorem Inv.step (h : s.Inv m st) (hstep : s.step m ev = some (s', o)) : s'.Inv m st := by
  have hcalls := h.calls
  rcases step_cases hstep with ⟨e, request, rfl, hcall, hq, rfl, rfl⟩ |
    ⟨e, request, rfl, hcaller, hq, rfl, rfl⟩
  · refine ⟨run_snoc.mpr ⟨s.request, h.runs, hq⟩, ?_⟩
    rw [List.filter_append, List.filter_cons, if_pos (isCaller_of_chain hcall), List.filter_nil,
      hcalls, List.take_add_one, hcall]
    rfl
  · refine ⟨run_snoc.mpr ⟨s.request, h.runs, hq⟩, ?_⟩
    rw [List.filter_append, List.filter_cons, if_neg (by simp [hcaller]), List.filter_nil,
      List.append_nil]
    exact hcalls

/-! ### One result -/

theorem handlersOf_filter (es : List (Alamofire.Event Unit)) :
    DataRequest.handlersOf (es.filter isCaller) = DataRequest.handlersOf es := by
  unfold DataRequest.handlersOf
  rw [List.filterMap_filter]
  refine List.filterMap_congr fun e _ => ?_
  cases e <;> rfl

/-- The handlers are those of the calls made. -/
theorem Inv.handlers (h : s.Inv m st) :
    DataRequest.handlersOf s.log = DataRequest.handlersOf (chain.take s.made) := by
  rw [← h.calls, handlersOf_filter]

/-- While a handler is to run none has run. -/
theorem Inv.given_eq_none (h : s.Inv m st) {p : Unit × Result Json} {ps : List (Unit × Result Json)}
    (hm : s.request.main = p :: ps) : s.request.delivered = [] := by
  have horder := congrArg List.length (DataRequest.history h.runs).order
  have hle : (DataRequest.handlersOf s.log).length ≤ 1 := by
    rw [h.handlers]
    exact ((List.take_prefix _ chain).filterMap _).length_le
  rw [hm] at horder
  simp only [List.length_append, List.length_map, List.length_cons] at horder
  exact List.length_eq_zero_iff.mp (by omega)

/-- A step hands over a result just if it runs the handler, and then that is given. -/
theorem Inv.step_given (h : s.Inv m st) (hstep : s.step m ev = some (s', o)) :
    o = none ∧ s'.given = s.given ∨ ∃ result, o = some result ∧ s.given = none ∧
      s'.given = some result := by
  rcases step_cases hstep with ⟨e, request, rfl, hcall, hq, rfl, rfl⟩ |
    ⟨e, request, rfl, hcaller, hq, rfl, rfl⟩
  · have hcaller := isCaller_of_chain hcall
    refine Or.inl ⟨rfl, ?_⟩
    rcases DataRequest.step_handlers hq with ⟨-, -, -, -, hd⟩ | ⟨_, rfl, rfl⟩ |
      ⟨_, _, rfl, -⟩ | ⟨_, _, rfl, -⟩
    · simp only [given, hd]
    · rfl
    · simp [isCaller] at hcaller
    · simp [isCaller] at hcaller
  · rcases DataRequest.step_handlers hq with ⟨-, hne, -, -, hd⟩ | ⟨_, rfl, rfl⟩ |
      ⟨_, _, rfl, -, -, rfl⟩ | ⟨p, ps, rfl, hm, rfl⟩
    · refine Or.inl ⟨?_, by simp only [given, hd]⟩
      cases e with
      | handler => exact absurd rfl hne
      | _ => rfl
    · simp [isCaller] at hcaller
    · exact Or.inl ⟨rfl, rfl⟩
    · have hnil := h.given_eq_none hm
      refine Or.inr ⟨p.2, ?_, ?_, ?_⟩
      · simp [answerOf, hnil]
      · simp [given, hnil]
      · simp [given, hnil]

end Sending

/-- **Each request gives its closure at most one result.** -/
theorem once (m : SessionManager) (start : String → Start) :
    (service m start).Once (fun s => ∃ st, s.Inv m st) Sending.given where
  start request := by
    refine ⟨⟨start request.path, Sending.inv_start m (start request.path)⟩, ?_⟩
    show (Sending.start (start request.path)).given = none
    rcases start request.path with error | error | _ <;> rfl
  keeps s ev s' o := by
    rintro ⟨st, h⟩ hstep
    exact ⟨st, h.step hstep⟩
  silent s ev s' := by
    rintro ⟨st, h⟩ hstep
    rcases h.step_given hstep with ⟨-, heq⟩ | ⟨result, ho, -⟩
    · exact heq
    · simp at ho
  answers s ev s' result := by
    rintro ⟨st, h⟩ hstep
    rcases h.step_given hstep with ⟨ho, -⟩ | ⟨result', ho, hnone, hsome⟩
    · simp at ho
    · obtain rfl := Option.some.inj ho
      exact ⟨hnone, hsome⟩

namespace Sending

variable {m : SessionManager} {st : Start} {s : Sending}

/-- The event takes the request on. -/
def Winds : SendingEvent → Prop
  | .call => True
  | .request e => DataRequest.Winds e

/-- What is left of a request and its chain. -/
def rank (m : SessionManager) (s : Sending) : ℕ := (chain.length - s.made) * 3 + s.request.rank m

/-- Without retriers a request does not go on for ever. -/
theorem step_rank {ev : SendingEvent} {s' : Sending} {o : Option (Result Json)} (hev : Winds ev)
    (hstep : s.step m ev = some (s', o)) : s'.rank m < s.rank m := by
  rcases step_cases hstep with ⟨e, request, rfl, hcall, hq, rfl, -⟩ |
    ⟨e, request, rfl, hcaller, hq, rfl, -⟩
  · have hcaller := isCaller_of_chain hcall
    have hlt : s.made < chain.length := (List.getElem?_eq_some_iff.mp hcall).1
    have hle : request.rank m ≤ s.request.rank m + 2 := by
      cases DataRequest.step_moves hq with
      | validate v => exact Nat.le_add_right _ _
      | response handler =>
        simp only [DataRequest.rank, List.length_append, List.length_singleton]
        omega
      | _ => simp [isCaller] at hcaller
    simp only [rank]
    omega
  · have hlt := DataRequest.lowers m s.request e request hev hq
    simp only [rank]
    omega

/-- When nothing is left to happen to a request the closure has its result. -/
theorem given_of_rest (hm : m.retriers = 0) (h : s.Inv m st)
    (hrest : ∀ ev, Winds ev → s.step m ev = none) : s.given ≠ none := by
  have hmade : chain[s.made]? = none := by
    rcases hcall : chain[s.made]? with _ | e
    · rfl
    · have hcaller := isCaller_of_chain hcall
      have hnone := hrest .call trivial
      rcases e with v | handler | _ | _ | _ | _ | _ | _ | _ | _ | _ <;>
        simp [step, hcall, DataRequest.step, isCaller] at hnone hcaller
  have hatRest : s.request.AtRest m := by
    intro e he
    have hnone := hrest (.request e) he
    have hcaller : isCaller e = false := by
      rcases e with v | handler | _ | _ | _ | _ | _ | _ | _ | _ | _ <;>
        first | rfl | exact absurd he id
    simpa [step, hcaller] using hnone
  have hrun := DataRequest.all_run h.runs hatRest (DataRequest.inTime_of_no_retrier hm h.runs)
  rw [h.handlers, List.take_of_length_le (List.getElem?_eq_none_iff.mp hmade)] at hrun
  intro hnone
  rw [given, Option.map_eq_none_iff, List.head?_eq_none_iff] at hnone
  simp [hnone, DataRequest.handlersOf, chain] at hrun

/-! ### What the closure is given -/

/-- The events take a request that starts as `st` to `s`. -/
def Runs (m : SessionManager) (st : Start) (evs : List SendingEvent) (s : Sending) : Prop :=
  run (fun s ev => (step m s ev).map Prod.fst) (start st) evs = some s

/-- What the events so far tell of the request's last attempt. -/
def attempt (st : Start) (s : Sending) : DataRequest.Attempt := DataRequest.attemptOf st s.log

variable {evs : List SendingEvent}

theorem inv (h : Runs m st evs s) : s.Inv m st := by
  refine run_invariant (I := fun s => s.Inv m st) (inv_start m st) ?_ h
  intro s ev s' hs hstep
  obtain ⟨⟨s'', o⟩, hso, rfl⟩ := Option.map_eq_some_iff.mp hstep
  exact hs.step hso

/-- The validations in time are the first of the two of the chain. -/
theorem Inv.validations (h : s.Inv m st) {vs : List Validation} {completion : Option NetworkError}
    (hended : (s.attempt st).ended = some (vs, completion)) :
    vs <+: [validateStatusCode, validateContentType (acceptableContentTypes none)] := by
  have hall : DataRequest.validationsOf (s.log.filter isCaller) = DataRequest.validationsOf s.log := by
    unfold DataRequest.validationsOf
    rw [List.filterMap_filter]
    refine List.filterMap_congr fun e _ => ?_
    cases e <;> rfl
  have hprefix := (DataRequest.ended_prefix st s.log).2 vs completion hended
  rw [← hall, h.calls] at hprefix
  exact hprefix.trans ((List.take_prefix _ chain).filterMap _)

/-- Of the two validations of the chain only that of the status code can refuse the response. -/
theorem runValidations_chain {vs : List Validation}
    (hvs : vs <+: [validateStatusCode, validateContentType (acceptableContentTypes none)])
    (response : Option HTTPURLResponse) (data : Option Data) :
    runValidations response data vs none =
      if vs = [] then none else response.bind fun r => validateStatusCode r data := by
  rcases response with _ | r
  · rw [runValidations_of_no_response]
    simp
  rw [runValidations_eq_findSome]
  have hcases : vs = [] ∨ vs = [validateStatusCode] ∨
      vs = [validateStatusCode, validateContentType (acceptableContentTypes none)] := by
    rcases vs with _ | ⟨v, _ | ⟨w, vs⟩⟩
    · exact Or.inl rfl
    · simp only [List.cons_prefix_cons] at hvs
      exact Or.inr (Or.inl (by rw [hvs.1]))
    · simp only [List.cons_prefix_cons, List.prefix_nil] at hvs
      exact Or.inr (Or.inr (by rw [hvs.1, hvs.2.1, hvs.2.2]))
  rcases hcases with rfl | rfl | rfl
  · simp
  · simp
  · rcases hv : validateStatusCode r data with _ | e
    · simp [hv, validateContentType_wildcard]
    · simp [hv]

theorem validateStatusCode_eq_none {r : HTTPURLResponse} {data : Option Data} :
    validateStatusCode r data = none ↔ acceptableStatusCode r.statusCode := by
  simp [validateStatusCode]

/-- The closure has been given the result of the last attempt. -/
theorem Inv.result (h : s.Inv m st) {result : Result Json} (hgiven : s.given = some result) :
    result = (s.attempt st).result m ∧
      ((s.attempt st).refused = none → (s.attempt st).ended ≠ none) := by
  obtain ⟨p, hp, rfl⟩ := Option.map_eq_some_iff.mp hgiven
  exact DataRequest.delivered_eq h.runs (List.mem_of_mem_head? hp)

theorem Inv.failure (h : s.Inv m st) {vs : List Validation} {completion : Option NetworkError}
    (hended : (s.attempt st).ended = some (vs, completion)) :
    (s.attempt st).failure = taskError (if vs = [] then none else
      (s.attempt st).response.bind fun r => validateStatusCode r (some (s.attempt st).data))
      completion := by
  rw [DataRequest.Attempt.failure, hended, Option.bind_some, runValidations_chain (h.validations hended)]

/-- The task completed without an error, and `validate()` accepts the status
code of its response, or came too late for it. -/
def Accepted (a : DataRequest.Attempt) : Prop :=
  a.refused = none ∧ ∃ vs, a.ended = some (vs, none) ∧
    (vs = [] ∨ ∀ r ∈ a.response, acceptableStatusCode r.statusCode)

theorem Inv.success_iff (h : s.Inv m st) {result : Result Json} (hgiven : s.given = some result)
    (json : Json) :
    result = .success json ↔ Accepted (s.attempt st) ∧
      ((s.attempt st).IsEmpty ∧ json = .null ∨
        ¬ (s.attempt st).IsEmpty ∧ (s.attempt st).data ≠ [] ∧
          m.jsonObject (s.attempt st).data = .ok json) := by
  obtain ⟨heq, hended⟩ := h.result hgiven
  rw [heq, DataRequest.Attempt.result, serializeResponseJSON_eq_success, DataRequest.Attempt.error,
    DataRequest.taskError_eq_none, Accepted, and_assoc, and_assoc]
  refine and_congr_right fun hrefused => and_congr ?_ (by simp [DataRequest.Attempt.IsEmpty])
  obtain ⟨⟨vs, completion⟩, hvs⟩ := Option.ne_none_iff_exists'.mp (hended hrefused)
  rw [h.failure hvs, DataRequest.taskError_eq_none, hvs]
  by_cases hnil : vs = []
  · simp [hnil]
  · rcases hresponse : (s.attempt st).response with _ | r
    · simp [hnil]
    · simp [hnil, validateStatusCode_eq_none, and_comm]

/-- **What the closure of a request of `Network` is given.** When nothing is
left to happen to the request its closure has been given a result. A result is
a success just where the task completed without an error, the status code of
its response is acceptable unless `validate()` came too late for it, and the
data is a value, or the status code says that there is none. Where `validate()`
came in time and the status code is not acceptable, the result is the failure
that says so, whatever the data and whatever the task's error. -/
theorem network_result {jsonObject : Data → Except String Json}
    (h : Runs (sessionManager jsonObject) st evs s) :
    ((∀ ev, Winds ev → s.step (sessionManager jsonObject) ev = none) → s.given ≠ none) ∧
    ∀ result, s.given = some result →
      (∀ json, result = .success json ↔ Accepted (s.attempt st) ∧
        ((s.attempt st).IsEmpty ∧ json = .null ∨
          ¬ (s.attempt st).IsEmpty ∧ (s.attempt st).data ≠ [] ∧
            jsonObject (s.attempt st).data = .ok json)) ∧
      ∀ vs completion r, (s.attempt st).refused = none →
        (s.attempt st).ended = some (vs, completion) → vs ≠ [] → r ∈ (s.attempt st).response →
        ¬ acceptableStatusCode r.statusCode →
        result = .failure (NetworkError.afError (.unacceptableStatusCode r.statusCode)).swiftError := by
  have hinv := inv h
  refine ⟨given_of_rest rfl hinv, fun result hgiven => ⟨hinv.success_iff hgiven, ?_⟩⟩
  intro vs completion r hrefused hvs hne hr hcode
  have herror : (s.attempt st).error = some (.afError (.unacceptableStatusCode r.statusCode)) := by
    rw [DataRequest.Attempt.error, hrefused, hinv.failure hvs, if_neg hne, Option.mem_def.mp hr]
    simp [validateStatusCode, hcode, taskError]
  rw [(hinv.result hgiven).1, DataRequest.Attempt.result, herror]
  rfl

/-- The chain, and then a response that `validate()` refuses. -/
def notFound : List SendingEvent :=
  [.call, .call, .call, .request (.didReceiveResponse 0 { statusCode := 404 }),
    .request (.didComplete 0 none), .request .operation, .request .handler]

theorem network_result_notFound : ∃ s, Runs (sessionManager fun _ => .ok .null) .created notFound s ∧
    s.given = some (.failure (.alamofire "Response status code was unacceptable: 404.")) := by
  refine ⟨_, rfl, ?_⟩
  have hresult := (@network_result .created _ notFound (fun _ => .ok .null) rfl).2 _ rfl
  exact congrArg some (hresult.2 _ none { statusCode := 404 } rfl rfl (List.cons_ne_nil _ _) rfl (by decide))

end Sending

end Network
end Workshop2018
