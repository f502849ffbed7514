/-
# A program and the jobs that answer it

A program asks for things and goes on; each is answered later, by an event of
the program. A model of the program alone has to assume how answers come: only
to what is outstanding, and each once. Here each thing asked for is the work of
a job of its own, whose steps run among those of the program, and one of which
may hand the program an answer.

If the program keeps its books (`Client.Lawful`) and a job answers at most once
(`Service.Once`), then what is outstanding is what some job has still to
answer, and the program over its jobs is in a run of the program alone
(`Joint.refines`), in which no answer is lost or made up (`Joint.answers_perm`)
or refused (`Joint.Inv.job_goes_on`), and the jobs are for just what that run
has asked for (`Joint.jobs_for`). If neither the program nor a job goes on for
ever, then neither do they together, and where none of them can go on nothing
is outstanding (`Joint.lowers`, `Joint.Inv.rest`).

Key definitions: `Client`, `Client.Lawful`, `Service`, `Service.Once`, `Joint`, `joint`.
Key theorems: `Joint.refines`, `Joint.answers_perm`, `Joint.jobs_for`, `Joint.Inv.job_goes_on`,
`Joint.lowers`, `Joint.Inv.rest`.
-/
import Workshop2018.Lib.Books
import Workshop2018.Lib.Progress

namespace Concurrent

/-! ### The program and its jobs -/

variable {σ ε τ ι α κ η : Type*}

/-- A program, and what it asks for: `asks s e` are the things that its step
`e` from `s` asks for, each by a name (`τ`) and what it is (`ι`); `answer t a`
is the event of `t` answered with `a`, and `answered` tells which events are. -/
structure Client (σ ε τ ι α : Type*) where
  step : σ → ε → Option σ
  asks : σ → ε → List (τ × ι)
  answer : τ → α → ε
  answered : ε → Option (τ × α)

/-- What works on the things asked for: how a job for one starts, and its
steps, each with the answer it hands to the program, if it does. -/
structure Service (ι α κ η : Type*) where
  start : ι → κ
  step : κ → η → Option (κ × Option α)

/-- The name of what a job is for, what that is, and the job. -/
structure Job (τ ι κ : Type*) where
  name : τ
  what : ι
  state : κ

/-- The program and the jobs it has started. `log` is history: the program's own steps. -/
structure Joint (σ ε τ ι κ : Type*) where
  client : σ
  jobs : List (Job τ ι κ) := []
  log : List ε := []

/-- A step of the program that is no answer, or of a job. -/
inductive JointEvent (ε η : Type*)
  | own (e : ε)
  | job (i : ℕ) (e : η)

variable (c : Client σ ε τ ι α) (v : Service ι α κ η)

/-- The program takes the step `e`, and a job starts for each thing asked for. -/
def Client.take (p : Joint σ ε τ ι κ) (e : ε) : Option (Joint σ ε τ ι κ) :=
  (c.step p.client e).map fun s =>
    { client := s
      jobs := p.jobs ++ (c.asks p.client e).map fun q => ⟨q.1, q.2, v.start q.2⟩
      log := p.log ++ [e] }

def joint (p : Joint σ ε τ ι κ) : JointEvent ε η → Option (Joint σ ε τ ι κ)
  | .own e => if (c.answered e).isSome then none else c.take v p e
  | .job i e =>
    match p.jobs[i]? with
    | none => none
    | some j =>
      match v.step j.state e with
      | none => none
      | some (k, none) => some { p with jobs := p.jobs.set i { j with state := k } }
      | some (k, some a) =>
        c.take v { p with jobs := p.jobs.set i { j with state := k } } (c.answer j.name a)

/-- What the steps of a run ask for, in order. -/
def Client.asked : σ → List ε → List (τ × ι)
  | _, [] => []
  | s, e :: es => c.asks s e ++ (c.step s e).elim [] fun t => Client.asked t es

/-- The program asks by the rules: `out s` is what is outstanding in `s`, and
whatever is can be answered. -/
structure Client.Lawful (out : σ → τ → Prop) (s₀ : σ) : Prop where
  start : ∀ t, ¬ out s₀ t
  answered_iff : ∀ e t a, c.answered e = some (t, a) ↔ e = c.answer t a
  books : ∀ es s e s', run c.step s₀ es = some s → c.step s e = some s' →
    Books (out s) (out s') ((c.asks s e).map Prod.fst) ((c.answered e).map Prod.fst)
  enabled : ∀ es s t a, run c.step s₀ es = some s → out s t → c.step s (c.answer t a) ≠ none

/-- A job in a state of `I` has given at most one answer: `given k`, if it has. -/
structure Service.Once (I : κ → Prop) (given : κ → Option α) : Prop where
  start : ∀ i, I (v.start i) ∧ given (v.start i) = none
  keeps : ∀ k e k' o, I k → v.step k e = some (k', o) → I k'
  silent : ∀ k e k', I k → v.step k e = some (k', none) → given k' = given k
  answers : ∀ k e k' a, I k → v.step k e = some (k', some a) → given k = none ∧ given k' = some a

/-! ### What a run asks for -/

section Asked

variable {c} {s s₀ : σ} {es : List ε} {e : ε} {P : σ → τ → ι → Prop}

theorem Client.asked_snoc (h : run c.step s es = some s₀) :
    c.asked s (es ++ [e]) = c.asked s es ++ c.asks s₀ e := by
  induction es generalizing s with
  | nil =>
    obtain rfl := Option.some.inj h
    show c.asks s e ++ (c.step s e).elim [] (fun _ => []) = c.asks s e
    cases c.step s e <;> simp
  | cons e' es ih =>
    obtain ⟨t, ht, hrun⟩ := Option.bind_eq_some_iff.mp h
    show c.asks s e' ++ (c.step s e').elim [] (fun t => c.asked t (es ++ [e])) =
      c.asks s e' ++ (c.step s e').elim [] (fun t => c.asked t es) ++ c.asks s₀ e
    simp only [ht, Option.elim, ih hrun, List.append_assoc]

/-- What has been asked for can be read off the state, if each step can. -/
theorem Client.mem_asked (h0 : ∀ t i, ¬ P s₀ t i)
    (hstep : ∀ es s e s', run c.step s₀ es = some s → c.step s e = some s' →
      ∀ t i, P s' t i ↔ P s t i ∨ (t, i) ∈ c.asks s e)
    (h : run c.step s₀ es = some s) : ∀ t i, (t, i) ∈ c.asked s₀ es ↔ P s t i := by
  refine run_history (P := fun es s => ∀ t i, (t, i) ∈ c.asked s₀ es ↔ P s t i) ?_ ?_ h
  · exact fun t i => iff_of_false List.not_mem_nil (h0 t i)
  · intro es s e s' hrun ih hs t i
    rw [Client.asked_snoc hrun, List.mem_append, ih, hstep es s e s' hrun hs]

/-- No name is asked for twice, if none is that has been asked for. -/
theorem Client.asked_nodup (h0 : ∀ t i, ¬ P s₀ t i)
    (hstep : ∀ es s e s', run c.step s₀ es = some s → c.step s e = some s' →
      ∀ t i, P s' t i ↔ P s t i ∨ (t, i) ∈ c.asks s e)
    (hnodup : ∀ es s e s', run c.step s₀ es = some s → c.step s e = some s' →
      ((c.asks s e).map Prod.fst).Nodup)
    (hfresh : ∀ es s e s', run c.step s₀ es = some s → c.step s e = some s' →
      ∀ q ∈ c.asks s e, ∀ i, ¬ P s q.1 i)
    (h : run c.step s₀ es = some s) : ((c.asked s₀ es).map Prod.fst).Nodup := by
  refine run_history (P := fun es _ => ((c.asked s₀ es).map Prod.fst).Nodup) List.nodup_nil ?_ h
  intro es s e s' hrun ih hs
  rw [Client.asked_snoc hrun, List.map_append]
  refine List.nodup_append.mpr ⟨ih, hnodup es s e s' hrun hs, fun t ht t' ht' heq => ?_⟩
  subst heq
  obtain ⟨⟨t, i⟩, hi, rfl⟩ := List.mem_map.mp ht
  obtain ⟨q, hq, hname⟩ := List.mem_map.mp ht'
  exact hfresh es s e s' hrun hs q hq i (hname ▸ (Client.mem_asked h0 hstep hrun t i).mp hi)

end Asked

/-! ### What is outstanding is what a job has still to answer -/

/-- The names of the jobs that have not answered. -/
def dueNames (given : κ → Option α) (jobs : List (Job τ ι κ)) : List τ :=
  (jobs.filter fun j => (given j.state).isNone).map Job.name

/-- The answers that the jobs have given, each with the name of its job. -/
def answersOf (given : κ → Option α) (jobs : List (Job τ ι κ)) : List (τ × α) :=
  jobs.filterMap fun j => (given j.state).map (Prod.mk j.name)

section DueNames

variable {given : κ → Option α} {j j' : Job τ ι κ} {jobs pre post : List (Job τ ι κ)} {t : τ}

theorem dueNames_append (jobs jobs' : List (Job τ ι κ)) :
    dueNames given (jobs ++ jobs') = dueNames given jobs ++ dueNames given jobs' := by
  simp [dueNames]

theorem mem_dueNames : t ∈ dueNames given jobs ↔ ∃ j ∈ jobs, j.name = t ∧ given j.state = none := by
  simp only [dueNames, List.mem_map, List.mem_filter, Option.isNone_iff_eq_none]
  exact exists_congr fun j => by tauto

theorem dueNames_of_due (h : given j.state = none) :
    dueNames given (pre ++ j :: post) = dueNames given pre ++ j.name :: dueNames given post := by
  simp [dueNames, h]

theorem dueNames_of_answered (h : given j.state ≠ none) :
    dueNames given (pre ++ j :: post) = dueNames given pre ++ dueNames given post := by
  simp [dueNames, h]

/-- A job that goes on without answering is due as it was. -/
theorem dueNames_silent (hname : j'.name = j.name) (hgiven : given j'.state = given j.state) :
    dueNames given (pre ++ j' :: post) = dueNames given (pre ++ j :: post) := by
  by_cases h : given j.state = none
  · rw [dueNames_of_due h, dueNames_of_due (hgiven.trans h), hname]
  · rw [dueNames_of_answered h, dueNames_of_answered (hgiven ▸ h)]

theorem answersOf_append (jobs jobs' : List (Job τ ι κ)) :
    answersOf given (jobs ++ jobs') = answersOf given jobs ++ answersOf given jobs' :=
  List.filterMap_append

theorem answersOf_cons (j : Job τ ι κ) (jobs : List (Job τ ι κ)) :
    answersOf given (j :: jobs) =
      ((given j.state).map (Prod.mk j.name)).toList ++ answersOf given jobs := by
  rcases h : given j.state with _ | a <;> simp [answersOf, h]

theorem mem_answersOf {a : α} :
    (t, a) ∈ answersOf given jobs ↔ ∃ j ∈ jobs, j.name = t ∧ given j.state = some a := by
  simp only [answersOf, List.mem_filterMap, Option.map_eq_some_iff, Prod.mk.injEq]
  constructor
  · rintro ⟨j, hj, a', ha, rfl, rfl⟩
    exact ⟨j, hj, rfl, ha⟩
  · rintro ⟨j, hj, rfl, ha⟩
    exact ⟨j, hj, a, ha, rfl, rfl⟩

/-- The one job of a list at an index, and that list with another in its place. -/
theorem split_at {i : ℕ} (h : jobs[i]? = some j) :
    ∃ pre post, jobs = pre ++ j :: post ∧ ∀ j', jobs.set i j' = pre ++ j' :: post := by
  obtain ⟨hlt, rfl⟩ := List.getElem?_eq_some_iff.mp h
  refine ⟨jobs.take i, jobs.drop (i + 1), ?_, fun j' => ?_⟩
  · rw [← List.drop_eq_getElem_cons hlt, List.take_append_drop]
  · rw [List.set_eq_take_append_cons_drop, if_pos hlt]

end DueNames

namespace Joint

variable {c v} {out : σ → τ → Prop} {s₀ : σ} {I : κ → Prop} {given : κ → Option α}
  {p q : Joint σ ε τ ι κ} {ev : JointEvent ε η} {evs : List (JointEvent ε η)}

/-- How the jobs and the program's own steps fit what is outstanding in it. -/
structure Inv (c : Client σ ε τ ι α) (out : σ → τ → Prop) (s₀ : σ) (I : κ → Prop)
    (given : κ → Option α) (p : Joint σ ε τ ι κ) : Prop where
  runs : run c.step s₀ p.log = some p.client
  jobs : ∀ j ∈ p.jobs, I j.state
  due : ∀ t, out p.client t ↔ t ∈ dueNames given p.jobs
  nodup : (dueNames given p.jobs).Nodup
  answers : (p.log.filterMap c.answered).Perm (answersOf given p.jobs)

theorem inv_start (hc : c.Lawful out s₀) : Inv c out s₀ I given ({ client := s₀ } : Joint σ ε τ ι κ) :=
  ⟨rfl, fun _ hj => absurd hj List.not_mem_nil, fun t => by simp [dueNames, hc.start t],
    List.nodup_nil, .refl _⟩

/-- The program takes a step, and the job that it answers, if it does, has answered. -/
theorem inv_take (hc : c.Lawful out s₀) (hv : v.Once I given) {e : ε}
    (hrun : run c.step s₀ p.log = some p.client) (hI : ∀ j ∈ p.jobs, I j.state)
    (hdue : ∀ t, t ∈ dueNames given p.jobs ↔
      out p.client t ∧ (c.answered e).map Prod.fst ≠ some t)
    (hnodup : (dueNames given p.jobs).Nodup)
    (hans : (p.log.filterMap c.answered ++ (c.answered e).toList).Perm (answersOf given p.jobs))
    (htake : c.take v p e = some q) : Inv c out s₀ I given q := by
  obtain ⟨s, hs, rfl⟩ := Option.map_eq_some_iff.mp htake
  have hbooks := hc.books p.log p.client e s hrun hs
  have hnone : ∀ j ∈ (c.asks p.client e).map fun q => (⟨q.1, q.2, v.start q.2⟩ : Job τ ι κ),
      given j.state = none := by
    intro j hj
    obtain ⟨q, -, rfl⟩ := List.mem_map.mp hj
    exact (hv.start q.2).2
  have hnew : dueNames given ((c.asks p.client e).map fun q => (⟨q.1, q.2, v.start q.2⟩ : Job τ ι κ)) =
      (c.asks p.client e).map Prod.fst := by
    rw [dueNames, List.filter_eq_self.mpr fun j hj => by simp [hnone j hj], List.map_map]
    rfl
  have hanswers : answersOf given
      ((c.asks p.client e).map fun q => (⟨q.1, q.2, v.start q.2⟩ : Job τ ι κ)) = [] :=
    List.filterMap_eq_nil_iff.mpr fun j hj => by simp [hnone j hj]
  refine ⟨run_snoc.mpr ⟨p.client, hrun, hs⟩, fun j hj => ?_, fun t => ?_, ?_, ?_⟩
  · rcases List.mem_append.mp hj with hj | hj
    · exact hI j hj
    · obtain ⟨q, -, rfl⟩ := List.mem_map.mp hj
      exact (hv.start q.2).1
  · rw [hbooks.after t, dueNames_append, List.mem_append, hnew, hdue t, or_comm]
  · rw [dueNames_append, hnew]
    refine List.nodup_append.mpr ⟨hnodup, hbooks.nodup, fun t ht t' ht' heq => ?_⟩
    subst heq
    exact hbooks.fresh t ht' ((hdue t).mp ht).1
  · have hlog : (p.log ++ [e]).filterMap c.answered =
        p.log.filterMap c.answered ++ (c.answered e).toList := by
      rw [List.filterMap_append]
      rcases ha : c.answered e with _ | x <;> simp [ha]
    rw [answersOf_append, hanswers, List.append_nil, hlog]
    exact hans

/-- What a step of the program over its jobs is: one of its own, one of a job
that goes on, or one of a job that answers. -/
theorem joint_cases (h : joint c v p ev = some q) :
    (∃ e, ev = .own e ∧ c.answered e = none ∧ c.take v p e = some q) ∨
    ∃ i e j k, ev = .job i e ∧ p.jobs[i]? = some j ∧
      (v.step j.state e = some (k, none) ∧ q = { p with jobs := p.jobs.set i { j with state := k } } ∨
        ∃ a, v.step j.state e = some (k, some a) ∧
          c.take v { p with jobs := p.jobs.set i { j with state := k } } (c.answer j.name a) = some q) := by
  rcases ev with e | ⟨i, e⟩
  · simp only [joint] at h
    split at h
    · simp at h
    · rename_i hnone
      exact Or.inl ⟨e, rfl, by simpa using hnone, h⟩
  · simp only [joint] at h
    split at h
    · simp at h
    · rename_i j hj
      split at h
      · simp at h
      · rename_i k hk
        exact Or.inr ⟨i, e, j, k, rfl, hj, Or.inl ⟨hk, (Option.some.inj h).symm⟩⟩
      · rename_i k a hk
        exact Or.inr ⟨i, e, j, k, rfl, hj, Or.inr ⟨a, hk, h⟩⟩

theorem Inv.silent (h : Inv c out s₀ I given p) (hv : v.Once I given) {i : ℕ} {j : Job τ ι κ} {k : κ}
    {e : η} (hj : p.jobs[i]? = some j) (hk : v.step j.state e = some (k, none)) :
    Inv c out s₀ I given { p with jobs := p.jobs.set i { j with state := k } } := by
  have hIj := h.jobs j (List.mem_of_getElem? hj)
  have hgiven := hv.silent j.state e k hIj hk
  obtain ⟨pre, post, hsplit, hset⟩ := split_at hj
  have hnames : dueNames given (p.jobs.set i { j with state := k }) = dueNames given p.jobs := by
    rw [hset, hsplit]
    exact dueNames_silent rfl hgiven
  have hanswers : answersOf given (p.jobs.set i { j with state := k }) = answersOf given p.jobs := by
    rw [hset, hsplit]
    simp only [answersOf_append, answersOf_cons, hgiven]
  refine ⟨h.runs, fun j' hj' => ?_, fun t => ?_, ?_, ?_⟩
  · rcases List.mem_or_eq_of_mem_set hj' with hj' | rfl
    · exact h.jobs j' hj'
    · exact hv.keeps _ _ _ _ hIj hk
  · rw [hnames]
    exact h.due t
  · rw [hnames]
    exact h.nodup
  · rw [hanswers]
    exact h.answers

theorem Inv.answer (h : Inv c out s₀ I given p) (hc : c.Lawful out s₀) (hv : v.Once I given) {i : ℕ}
    {j : Job τ ι κ} {k : κ} {e : η} {a : α} (hj : p.jobs[i]? = some j)
    (hk : v.step j.state e = some (k, some a))
    (htake : c.take v { p with jobs := p.jobs.set i { j with state := k } } (c.answer j.name a) = some q) :
    Inv c out s₀ I given q := by
  have hIj := h.jobs j (List.mem_of_getElem? hj)
  obtain ⟨hnone, hsome⟩ := hv.answers j.state e k a hIj hk
  have hself : c.answered (c.answer j.name a) = some (j.name, a) := (hc.answered_iff _ _ _).mpr rfl
  have hdue := h.due
  have hnodup := h.nodup
  have hans := h.answers
  obtain ⟨pre, post, hsplit, hset⟩ := split_at hj
  rw [hsplit, dueNames_of_due hnone] at hnodup
  have hnames : dueNames given (p.jobs.set i { j with state := k }) =
      dueNames given pre ++ dueNames given post := by
    rw [hset]
    exact dueNames_of_answered (by simp [hsome])
  -- the job's name was due once, and is not any more
  have hnot : j.name ∉ dueNames given pre ++ dueNames given post := by
    have hperm := List.nodup_middle.mp hnodup
    exact (List.nodup_cons.mp hperm).1
  refine inv_take (p := { p with jobs := p.jobs.set i { j with state := k } }) hc hv h.runs
    (fun j' hj' => ?_) (fun t => ?_) ?_ ?_ htake
  · rcases List.mem_or_eq_of_mem_set hj' with hj' | rfl
    · exact h.jobs j' hj'
    · exact hv.keeps _ _ _ _ hIj hk
  · show t ∈ dueNames given (p.jobs.set i { j with state := k }) ↔ out p.client t ∧ _
    rw [hnames, hself, hdue t, hsplit, dueNames_of_due hnone]
    by_cases ht : j.name = t
    · subst ht
      simp [hnot]
    · simp [ht, Ne.symm ht]
  · show (dueNames given (p.jobs.set i { j with state := k })).Nodup
    rw [hnames]
    exact (List.nodup_cons.mp (List.nodup_middle.mp hnodup)).2
  · show (p.log.filterMap c.answered ++ _).Perm (answersOf given (p.jobs.set i { j with state := k }))
    rw [hsplit, answersOf_append, answersOf_cons, hnone] at hans
    rw [hself, hset, answersOf_append, answersOf_cons, hsome]
    exact (hans.append_right [(j.name, a)]).trans
      ((List.perm_append_singleton _ _).trans List.perm_middle.symm)

theorem Inv.step (h : Inv c out s₀ I given p) (hc : c.Lawful out s₀) (hv : v.Once I given)
    (hstep : joint c v p ev = some q) : Inv c out s₀ I given q := by
  rcases joint_cases hstep with ⟨e, rfl, hnone, htake⟩ | ⟨i, e, j, k, rfl, hj, ⟨hk, rfl⟩ | ⟨a, hk, htake⟩⟩
  · refine inv_take hc hv h.runs h.jobs (fun t => ?_) h.nodup ?_ htake
    · simp [hnone, h.due t]
    · simpa [hnone] using h.answers
  · exact h.silent hv hj hk
  · exact h.answer hc hv hj hk htake

theorem inv (hc : c.Lawful out s₀) (hv : v.Once I given)
    (h : run (joint c v) { client := s₀ } evs = some p) : Inv c out s₀ I given p :=
  run_invariant (inv_start hc) (fun _ _ _ ht hu => ht.step hc hv hu) h

/-! ### What the program over its jobs does -/

/-- **The program over its jobs refines the program alone.** Its steps so far
are a run of the program, which ends where the program stands. -/
theorem refines (hc : c.Lawful out s₀) (hv : v.Once I given)
    (h : run (joint c v) { client := s₀ } evs = some p) : run c.step s₀ p.log = some p.client :=
  (inv hc hv h).runs

/-- No answer is lost, none is made up, and none is taken in twice: the program
has taken in just those that its jobs have given. -/
theorem answers_perm (hc : c.Lawful out s₀) (hv : v.Once I given)
    (h : run (joint c v) { client := s₀ } evs = some p) :
    (p.log.filterMap c.answered).Perm (answersOf given p.jobs) :=
  (inv hc hv h).answers

theorem Inv.answers_iff (h : Inv c out s₀ I given p) (hc : c.Lawful out s₀) {t : τ} {a : α} :
    c.answer t a ∈ p.log ↔ ∃ j ∈ p.jobs, j.name = t ∧ given j.state = some a := by
  rw [← mem_answersOf, ← h.answers.mem_iff, List.mem_filterMap]
  constructor
  · exact fun hmem => ⟨_, hmem, (hc.answered_iff _ _ _).mpr rfl⟩
  · rintro ⟨e, he, ha⟩
    obtain rfl := (hc.answered_iff _ _ _).mp ha
    exact he

/-- A job that has not answered can: the program takes whatever it is handed. -/
theorem Inv.job_goes_on (h : Inv c out s₀ I given p) (hc : c.Lawful out s₀) (hv : v.Once I given)
    {i : ℕ} {j : Job τ ι κ} {e : η} (hj : p.jobs[i]? = some j) (hk : v.step j.state e ≠ none) :
    joint c v p (.job i e) ≠ none := by
  obtain ⟨⟨k, o⟩, hk⟩ := Option.ne_none_iff_exists'.mp hk
  simp only [joint, hj, hk]
  rcases o with _ | a
  · exact Option.some_ne_none _
  · have hnone := (hv.answers j.state e k a (h.jobs j (List.mem_of_getElem? hj)) hk).1
    have hout : out p.client j.name :=
      (h.due j.name).mpr (mem_dueNames.mpr ⟨j, List.mem_of_getElem? hj, rfl, hnone⟩)
    have hen := hc.enabled p.log p.client j.name a h.runs hout
    simpa [Client.take] using hen

/-- Each job is in a run of its own. -/
theorem jobs_run (h : run (joint c v) { client := s₀ } evs = some p) : ∀ j ∈ p.jobs,
    ∃ es, run (fun k e => (v.step k e).map Prod.fst) (v.start j.what) es = some j.state := by
  have htake : ∀ {p q : Joint σ ε τ ι κ} {e : ε}, c.take v p e = some q →
      (∀ j ∈ p.jobs, ∃ es, run (fun k e => (v.step k e).map Prod.fst) (v.start j.what) es =
        some j.state) →
      ∀ j ∈ q.jobs, ∃ es, run (fun k e => (v.step k e).map Prod.fst) (v.start j.what) es =
        some j.state := by
    intro p q e htake hp j hj
    obtain ⟨s, hs, rfl⟩ := Option.map_eq_some_iff.mp htake
    rcases List.mem_append.mp hj with hj | hj
    · exact hp j hj
    · obtain ⟨q, -, rfl⟩ := List.mem_map.mp hj
      exact ⟨[], rfl⟩
  have hset : ∀ {p : Joint σ ε τ ι κ} {i : ℕ} {j : Job τ ι κ} {e : η} {k : κ} {o : Option α},
      p.jobs[i]? = some j → v.step j.state e = some (k, o) →
      (∀ j ∈ p.jobs, ∃ es, run (fun k e => (v.step k e).map Prod.fst) (v.start j.what) es =
        some j.state) →
      ∀ j' ∈ p.jobs.set i { j with state := k }, ∃ es,
        run (fun k e => (v.step k e).map Prod.fst) (v.start j'.what) es = some j'.state := by
    intro p i j e k o hj hk hp j' hj'
    rcases List.mem_or_eq_of_mem_set hj' with hj' | rfl
    · exact hp j' hj'
    · obtain ⟨es, hrun⟩ := hp j (List.mem_of_getElem? hj)
      exact ⟨es ++ [e], run_snoc.mpr ⟨j.state, hrun, by simp [hk]⟩⟩
  refine run_invariant (I := fun p : Joint σ ε τ ι κ => ∀ j ∈ p.jobs, ∃ es,
    run (fun k e => (v.step k e).map Prod.fst) (v.start j.what) es = some j.state)
    (fun _ hj => absurd hj List.not_mem_nil) ?_ h
  intro p ev q hp hstep
  rcases joint_cases hstep with ⟨e, rfl, -, ht⟩ | ⟨i, e, j, k, rfl, hj, ⟨hk, rfl⟩ | ⟨a, hk, ht⟩⟩
  · exact htake ht hp
  · exact hset hj hk hp
  · exact htake (p := { p with jobs := p.jobs.set i { j with state := k } }) ht (hset hj hk hp)

/-- **The jobs are for what has been asked for**, in order, each once. -/
theorem jobs_for (h : run (joint c v) { client := s₀ } evs = some p) :
    run c.step s₀ p.log = some p.client ∧
      p.jobs.map (fun j => (j.name, j.what)) = c.asked s₀ p.log := by
  have htake : ∀ {p q : Joint σ ε τ ι κ} {e : ε}, c.take v p e = some q →
      (run c.step s₀ p.log = some p.client ∧
        p.jobs.map (fun j => (j.name, j.what)) = c.asked s₀ p.log) →
      run c.step s₀ q.log = some q.client ∧
        q.jobs.map (fun j => (j.name, j.what)) = c.asked s₀ q.log := by
    rintro p q e htake ⟨hrun, hjobs⟩
    obtain ⟨s, hs, rfl⟩ := Option.map_eq_some_iff.mp htake
    refine ⟨run_snoc.mpr ⟨p.client, hrun, hs⟩, ?_⟩
    rw [Client.asked_snoc hrun, List.map_append, hjobs, List.map_map]
    exact congrArg _ (List.map_id _)
  have hset : ∀ {p : Joint σ ε τ ι κ} {i : ℕ} {j : Job τ ι κ} (k : κ), p.jobs[i]? = some j →
      (p.jobs.set i { j with state := k }).map (fun j => (j.name, j.what)) =
        p.jobs.map fun j => (j.name, j.what) := by
    intro p i j k hj
    obtain ⟨pre, post, hsplit, hset⟩ := split_at hj
    rw [hset, hsplit]
    simp
  refine run_invariant (I := fun p : Joint σ ε τ ι κ => run c.step s₀ p.log = some p.client ∧
    p.jobs.map (fun j => (j.name, j.what)) = c.asked s₀ p.log) ⟨rfl, rfl⟩ ?_ h
  intro p ev q hp hstep
  rcases joint_cases hstep with ⟨e, rfl, -, ht⟩ | ⟨i, e, j, k, rfl, hj, ⟨-, rfl⟩ | ⟨a, -, ht⟩⟩
  · exact htake ht hp
  · exact ⟨hp.1, (hset k hj).trans hp.2⟩
  · exact htake (p := { p with jobs := p.jobs.set i { j with state := k } }) ht
      ⟨hp.1, (hset k hj).trans hp.2⟩

/-! ### Left alone -/

section Rest

variable {C : ε → Prop} {D : η → Prop}

/-- The step is one of `C` of the program's own, or one of `D` of a job. -/
def Quietly (C : ε → Prop) (D : η → Prop) : JointEvent ε η → Prop
  | .own e => C e
  | .job _ e => D e

/-- A run goes on from where it is by steps of the program alone, each of `C`. -/
theorem run_log (hanswer : ∀ t a, C (c.answer t a)) (hev : ∀ ev ∈ evs, Quietly C D ev)
    (h : run (joint c v) p evs = some q) :
    ∃ es, q.log = p.log ++ es ∧ (∀ e ∈ es, C e) ∧ run c.step p.client es = some q.client := by
  have htake : ∀ {q u : Joint σ ε τ ι κ} {e : ε}, C e → c.take v q e = some u →
      (∃ es, q.log = p.log ++ es ∧ (∀ e ∈ es, C e) ∧ run c.step p.client es = some q.client) →
      ∃ es, u.log = p.log ++ es ∧ (∀ e ∈ es, C e) ∧ run c.step p.client es = some u.client := by
    rintro q u e he htake ⟨es, hlog, hes, hrun⟩
    obtain ⟨s, hs, rfl⟩ := Option.map_eq_some_iff.mp htake
    refine ⟨es ++ [e], ?_, fun e' he' => ?_, run_snoc.mpr ⟨q.client, hrun, hs⟩⟩
    · rw [← List.append_assoc, ← hlog]
    · rcases List.mem_append.mp he' with he' | he'
      · exact hes e' he'
      · exact List.mem_singleton.mp he' ▸ he
  refine run_history (P := fun evs (q : Joint σ ε τ ι κ) => (∀ ev ∈ evs, Quietly C D ev) →
    ∃ es, q.log = p.log ++ es ∧ (∀ e ∈ es, C e) ∧ run c.step p.client es = some q.client) ?_ ?_ h hev
  · exact fun _ => ⟨[], (List.append_nil _).symm, nofun, rfl⟩
  · intro evs q ev u _ ih hstep hev
    have hq := ih fun ev' hev' => hev ev' (List.mem_append_left _ hev')
    have hlast := hev ev (List.mem_append_right _ List.mem_cons_self)
    rcases joint_cases hstep with ⟨e, rfl, -, ht⟩ | ⟨i, e, j, k, rfl, hj, ⟨-, rfl⟩ | ⟨a, -, ht⟩⟩
    · exact htake hlast ht hq
    · exact hq
    · exact htake (hanswer _ _) ht hq

/-- If neither the program nor a job goes on for ever, they do not together:
a job may start others only by answering, which takes the program on. -/
theorem lowers {β : Type*} [Preorder β] {rank : σ → β} {ρ : κ → ℕ} (hrank : Lowers c.step C rank)
    (hanswer : ∀ t a, C (c.answer t a))
    (hρ : ∀ k e k', D e → v.step k e = some (k', none) → ρ k' < ρ k) :
    Lowers (joint c v) (Quietly C D) fun p : Joint σ ε τ ι κ =>
      toLex (rank p.client, (p.jobs.map fun j => ρ j.state).sum) := by
  have htake : ∀ {p q : Joint σ ε τ ι κ} {e : ε}, C e → c.take v p e = some q →
      rank q.client < rank p.client := by
    intro p q e he htake
    obtain ⟨s, hs, rfl⟩ := Option.map_eq_some_iff.mp htake
    exact hrank _ e _ he hs
  intro p ev q hev hstep
  rcases joint_cases hstep with ⟨e, rfl, -, ht⟩ | ⟨i, e, j, k, rfl, hj, ⟨hk, rfl⟩ | ⟨a, -, ht⟩⟩
  · exact Prod.Lex.toLex_lt_toLex.mpr (Or.inl (htake hev ht))
  · exact Prod.Lex.toLex_lt_toLex.mpr (Or.inr ⟨rfl, Machine.sum_set_lt hj (hρ _ _ _ hev hk)⟩)
  · have hlt := htake (p := { p with jobs := p.jobs.set i { j with state := k } }) (hanswer _ _) ht
    exact Prod.Lex.toLex_lt_toLex.mpr (Or.inl hlt)

/-- Where none of them can go on every job has answered, so nothing is
outstanding, and the program alone could not go on either. -/
theorem Inv.rest (h : Inv c out s₀ I given p) (hc : c.Lawful out s₀) (hv : v.Once I given)
    (hdone : ∀ k, I k → (∀ e, D e → v.step k e = none) → given k ≠ none)
    (hrest : ∀ ev, Quietly C D ev → joint c v p ev = none) :
    (∀ t, ¬ out p.client t) ∧ ∀ e, C e → c.step p.client e = none := by
  have hnone : ∀ t, ¬ out p.client t := by
    intro t ht
    obtain ⟨j, hj, rfl, hgiven⟩ := mem_dueNames.mp ((h.due t).mp ht)
    obtain ⟨i, hi⟩ := List.mem_iff_getElem?.mp hj
    refine hdone j.state (h.jobs j hj) (fun e he => ?_) hgiven
    by_contra hne
    exact h.job_goes_on hc hv hi hne (hrest (.job i e) he)
  refine ⟨hnone, fun e he => ?_⟩
  by_contra hne
  obtain ⟨s, hs⟩ := Option.ne_none_iff_exists'.mp hne
  rcases ha : c.answered e with _ | ⟨t, a⟩
  · have hown := hrest (.own e) he
    simp [joint, ha, Client.take, hs] at hown
  · have hbooks := hc.books p.log p.client e s h.runs hs
    exact hnone t (hbooks.answers t (by simp [ha]))

end Rest

end Joint

end Concurrent
