/-
# Fanning requests in with a dispatch group

A dispatch group counts the `enter`s not yet matched by a `leave`. A block
handed to `notify` is submitted once: at once if the count is zero, else by
the `leave` that takes the count to zero.

A fan-in enters the group before it sends each request, leaves it when the
request's response has been taken in, and hands `notify` a block once the last
request is sent. `FanIn` holds the variables of one such use and what of it is
still outstanding; `FanIn.Inv` relates the count, the outstanding requests,
the array gathered so far and the blocks, and every operation keeps it, in
any order in which responses arrive, also while requests are still being sent.
What the invariant gives:

* the count is never negative (`Inv.count_nonneg`), so no `leave` comes before
  its `enter`;
* once a block has been submitted, every request has its response
  (`Inv.requests_of_submitted`);
* each block handed to `notify` has run exactly once when nothing is
  outstanding (`Inv.ran_perm`), and at no time have more run (`Inv.ran_length_le`);
* the array is that of the responses in the order they came (`Inv.delivery`).

Key definitions: `DispatchGroup`, `FanIn`, `FanIn.Inv`.
-/
import Workshop2018.Lib.Delivery

namespace Concurrent

variable {β ι α : Type*}

/-- A dispatch group: its count, and the blocks `notify` registered that it
has not submitted yet. -/
structure DispatchGroup (β : Type*) where
  count : ℤ := 0
  waiting : List β := []
  deriving DecidableEq, Repr

namespace DispatchGroup

open scoped List

def enter (g : DispatchGroup β) : DispatchGroup β := { g with count := g.count + 1 }

/-- The group after `leave`, and the blocks the `leave` submits. -/
def leave (g : DispatchGroup β) : DispatchGroup β × List β :=
  if g.count - 1 = 0 then ({ count := g.count - 1, waiting := [] }, g.waiting)
  else ({ g with count := g.count - 1 }, [])

/-- The group after `notify`, and the blocks the `notify` submits. -/
def notify (b : β) (g : DispatchGroup β) : DispatchGroup β × List β :=
  if g.count = 0 then (g, [b]) else ({ g with waiting := g.waiting ++ [b] }, [])

@[simp] theorem enter_count (g : DispatchGroup β) : g.enter.count = g.count + 1 := rfl

@[simp] theorem leave_count (g : DispatchGroup β) : g.leave.1.count = g.count - 1 := by
  unfold leave; split <;> rfl

/-- A `leave` keeps every block: those it does not submit wait on. -/
@[simp] theorem leave_blocks (g : DispatchGroup β) : g.leave.1.waiting ++ g.leave.2 = g.waiting := by
  unfold leave; split <;> simp

/-- Submitted behind `q`, the blocks of a `leave` are still the same blocks. -/
theorem leave_perm (g : DispatchGroup β) (q : List β) :
    (g.leave.1.waiting ++ (q ++ g.leave.2)).Perm (g.waiting ++ q) := by
  have hswap : (q ++ g.leave.2).Perm (g.leave.2 ++ q) := List.perm_append_comm
  calc g.leave.1.waiting ++ (q ++ g.leave.2)
      ~ g.leave.1.waiting ++ (g.leave.2 ++ q) := hswap.append_left _
    _ = g.waiting ++ q := by rw [← List.append_assoc, leave_blocks]

theorem count_of_leave_submits (g : DispatchGroup β) (h : g.leave.2 ≠ []) : g.leave.1.count = 0 := by
  unfold leave at h ⊢
  split at h
  · rename_i h0; simp [h0]
  · exact absurd rfl h

theorem count_of_leave_waits (g : DispatchGroup β) (h : g.leave.1.waiting ≠ []) :
    g.leave.1.count ≠ 0 := by
  unfold leave at h ⊢
  split at h
  · exact absurd rfl h
  · rename_i h0; simp [h0]

@[simp] theorem notify_count (b : β) (g : DispatchGroup β) : (g.notify b).1.count = g.count := by
  unfold notify; split <;> rfl

@[simp] theorem notify_blocks (b : β) (g : DispatchGroup β) :
    (g.notify b).1.waiting ++ (g.notify b).2 = g.waiting ++ [b] := by
  unfold notify; split <;> simp

theorem count_of_notify_submits (b : β) (g : DispatchGroup β) (h : (g.notify b).2 ≠ []) :
    g.count = 0 := by
  unfold notify at h
  split at h
  · assumption
  · exact absurd rfl h

end DispatchGroup

/-- One fan-in: the group, the array its responses are appended to, the
requests sent so far, the positions among them whose response is outstanding,
and the blocks submitted by the group that have not run. The last four fields
are history: how often the group was entered, the responses in the order they
came, the blocks handed to `notify`, and those that have run. -/
structure FanIn (β ι α : Type*) where
  group : DispatchGroup β := {}
  array : List α := []
  issued : List ι := []
  requests : List ℕ := []
  queued : List β := []
  entered : ℕ := 0
  settled : List (ℕ × Option α) := []
  registered : List β := []
  ran : List β := []
  deriving DecidableEq, Repr

namespace FanIn

/-- `group.enter()`. -/
def enter (f : FanIn β ι α) : FanIn β ι α :=
  { f with group := f.group.enter, entered := f.entered + 1 }

/-- Send request `i`; it takes the next position. -/
def issue (i : ι) (f : FanIn β ι α) : FanIn β ι α :=
  { f with issued := f.issued ++ [i], requests := f.requests ++ [f.issued.length] }

/-- The response to position `k` arrives, with a value or without one. -/
def respond (k : ℕ) (o : Option α) (f : FanIn β ι α) : FanIn β ι α :=
  { f with requests := f.requests.erase k, settled := f.settled ++ [(k, o)] }

/-- `array.append(a)`. -/
def append (a : α) (f : FanIn β ι α) : FanIn β ι α := { f with array := f.array ++ [a] }

/-- `group.leave()`. -/
def leave (f : FanIn β ι α) : FanIn β ι α :=
  { f with group := f.group.leave.1, queued := f.queued ++ f.group.leave.2 }

/-- `group.notify`. -/
def notify (b : β) (f : FanIn β ι α) : FanIn β ι α :=
  { f with
    group := (f.group.notify b).1
    queued := f.queued ++ (f.group.notify b).2
    registered := f.registered ++ [b] }

/-- The first submitted block leaves its queue to run. -/
def next (f : FanIn β ι α) : Option (β × FanIn β ι α) :=
  match f.queued with
  | [] => none
  | b :: bs => some (b, { f with queued := bs, ran := f.ran ++ [b] })

/-- The response to position `k` is taken in: its value, if it has one, is
appended, and the group is left. -/
def settle (k : ℕ) (o : Option α) (f : FanIn β ι α) : FanIn β ι α :=
  (o.elim (f.respond k o) fun a => (f.respond k o).append a).leave

/-- The loop that enters the group and sends a request, for each of `is`. -/
def issueAll (is : List ι) (f : FanIn β ι α) : FanIn β ι α :=
  is.foldl (fun f i => f.enter.issue i) f

/-- What holds of a fan-in whatever the order of its responses. -/
structure Inv (f : FanIn β ι α) : Prop where
  issued_le : f.issued.length ≤ f.entered
  count : f.group.count = f.requests.length + (f.entered - f.issued.length : ℕ)
  split : (f.requests ++ f.settled.map Prod.fst).Perm (List.range f.issued.length)
  array : f.array = f.settled.filterMap Prod.snd
  blocks : (f.group.waiting ++ f.queued ++ f.ran).Perm f.registered
  closed : f.registered ≠ [] → f.issued.length = f.entered
  waits : f.group.waiting ≠ [] → f.group.count ≠ 0
  fired : f.queued ++ f.ran ≠ [] → f.group.count = 0

variable {f : FanIn β ι α}

theorem inv_empty : Inv ({} : FanIn β ι α) :=
  ⟨le_rfl, rfl, .refl _, rfl, .refl _, fun h => absurd rfl h, fun h => absurd rfl h,
    fun h => absurd rfl h⟩

/-- A fan-in that has registered no block has none anywhere. -/
theorem Inv.blocks_nil (h : Inv f) (hr : f.registered = []) :
    f.group.waiting = [] ∧ f.queued = [] ∧ f.ran = [] := by
  have hb := h.blocks
  rw [hr, List.perm_nil] at hb
  simpa [and_assoc] using hb

theorem Inv.registered_ne (h : Inv f) (hb : f.group.waiting ++ f.queued ++ f.ran ≠ []) :
    f.registered ≠ [] := by
  intro hr
  obtain ⟨h1, h2, h3⟩ := h.blocks_nil hr
  exact hb (by simp [h1, h2, h3])

/-- Once a block is registered the count is that of the outstanding requests. -/
theorem Inv.count_eq (h : Inv f) (hr : f.registered ≠ []) : f.group.count = f.requests.length := by
  have := h.count
  rw [h.closed hr] at this
  simpa using this

/-! ### Each operation keeps the invariant -/

theorem Inv.enter (h : Inv f) (hr : f.registered = []) : Inv f.enter := by
  have hle := h.issued_le
  obtain ⟨hw, hq, hran⟩ := h.blocks_nil hr
  refine ⟨?_, ?_, h.split, h.array, h.blocks, ?_, ?_, ?_⟩
  · exact Nat.le_succ_of_le hle
  · have hc := h.count
    simp only [FanIn.enter, DispatchGroup.enter_count, hc]
    omega
  · exact fun hne => absurd hr hne
  · exact fun hne => absurd hw hne
  · simp [FanIn.enter, hq, hran]

theorem Inv.issue (h : Inv f) (i : ι) (hlt : f.issued.length < f.entered) : Inv (f.issue i) := by
  have hr : f.registered = [] := by
    by_contra hne
    have := h.closed hne
    omega
  obtain ⟨hw, hq, hran⟩ := h.blocks_nil hr
  refine ⟨?_, ?_, ?_, h.array, h.blocks, ?_, ?_, ?_⟩
  · simpa [FanIn.issue] using hlt
  · have hc := h.count
    simp only [FanIn.issue, hc, List.length_append, List.length_singleton]
    omega
  · simp only [FanIn.issue, List.length_append, List.length_singleton, List.range_succ]
    rw [List.append_assoc]
    refine (List.Perm.append_left _ List.perm_append_comm).trans ?_
    rw [← List.append_assoc]
    exact h.split.append_right _
  · exact fun hne => absurd hr hne
  · exact fun hne => absurd hw hne
  · simp [FanIn.issue, hq, hran]

theorem issueAll_registered (is : List ι) (f : FanIn β ι α) :
    (f.issueAll is).registered = f.registered := by
  induction is generalizing f with
  | nil => rfl
  | cons i is ih => exact ih (f.enter.issue i)

theorem issueAll_issued (is : List ι) (f : FanIn β ι α) : (f.issueAll is).issued = f.issued ++ is := by
  induction is generalizing f with
  | nil => exact (List.append_nil _).symm
  | cons i is ih =>
    refine (ih (f.enter.issue i)).trans ?_
    simp [FanIn.issue, FanIn.enter]

theorem issueAll_entered (is : List ι) (f : FanIn β ι α) :
    (f.issueAll is).entered = f.entered + is.length := by
  induction is generalizing f with
  | nil => rfl
  | cons i is ih =>
    refine (ih (f.enter.issue i)).trans ?_
    simp only [FanIn.issue, FanIn.enter, List.length_cons]
    omega

theorem issueAll_ran (is : List ι) (f : FanIn β ι α) : (f.issueAll is).ran = f.ran := by
  induction is generalizing f with
  | nil => rfl
  | cons i is ih => exact ih (f.enter.issue i)

theorem issueAll_settled (is : List ι) (f : FanIn β ι α) : (f.issueAll is).settled = f.settled := by
  induction is generalizing f with
  | nil => rfl
  | cons i is ih => exact ih (f.enter.issue i)

theorem Inv.issueAll (h : Inv f) (is : List ι) (hr : f.registered = []) : Inv (f.issueAll is) := by
  induction is generalizing f with
  | nil => exact h
  | cons i is ih =>
    have hlt : f.enter.issued.length < f.enter.entered := Nat.lt_succ_of_le h.issued_le
    exact ih ((h.enter hr).issue i hlt) hr

theorem settle_eq (k : ℕ) (o : Option α) : f.settle k o = { f with
    group := f.group.leave.1, queued := f.queued ++ f.group.leave.2, requests := f.requests.erase k,
    settled := f.settled ++ [(k, o)], array := f.array ++ o.toList } := by
  cases o <;> simp [settle, respond, append, leave]

theorem Inv.settle (h : Inv f) {k : ℕ} (hk : k ∈ f.requests) (o : Option α) : Inv (f.settle k o) := by
  have hlen : (f.requests.erase k).length + 1 = f.requests.length := by
    have := List.length_pos_of_mem hk
    rw [List.length_erase_of_mem hk]
    omega
  have hcount : f.group.leave.1.count =
      (f.requests.erase k).length + (f.entered - f.issued.length : ℕ) := by
    rw [DispatchGroup.leave_count, h.count]
    omega
  have hblocks : (f.group.leave.1.waiting ++ (f.queued ++ f.group.leave.2) ++ f.ran).Perm
      f.registered :=
    ((DispatchGroup.leave_perm f.group f.queued).append_right _).trans h.blocks
  rw [settle_eq]
  refine ⟨h.issued_le, hcount, ?_, ?_, hblocks, h.closed, ?_, ?_⟩
  · have he : f.requests.Perm (k :: f.requests.erase k) := List.perm_cons_erase hk
    simp only [List.map_append, List.map_cons, List.map_nil]
    rw [← List.append_assoc]
    refine (List.perm_append_singleton _ _).trans ?_
    exact (he.append_right _).symm.trans h.split
  · simp only [List.filterMap_append, h.array]
    cases o <;> rfl
  · exact DispatchGroup.count_of_leave_waits _
  · intro hne
    by_cases hsub : f.group.leave.2 = []
    · rw [hsub, List.append_nil] at hne
      have h0 := h.fired hne
      have hr : f.registered ≠ [] := h.registered_ne fun hnil => hne (by simp_all)
      have := h.count_eq hr
      omega
    · exact DispatchGroup.count_of_leave_submits _ hsub

theorem Inv.notify (h : Inv f) (b : β) (hall : f.issued.length = f.entered)
    (hr : f.registered = []) : Inv (f.notify b) := by
  obtain ⟨hw, hq, hran⟩ := h.blocks_nil hr
  refine ⟨h.issued_le, ?_, h.split, h.array, ?_, fun _ => hall, ?_, ?_⟩
  · simpa [FanIn.notify] using h.count
  · simp only [FanIn.notify, hr, hran, hq, List.nil_append, List.append_nil,
      DispatchGroup.notify_blocks, hw]
    exact .refl _
  · simp only [FanIn.notify, DispatchGroup.notify]
    split
    · exact fun hne => absurd hw hne
    · exact fun _ => by assumption
  · intro hne
    simp only [FanIn.notify, hq, hran, List.nil_append, List.append_nil] at hne ⊢
    rw [DispatchGroup.notify_count]
    exact DispatchGroup.count_of_notify_submits b _ hne

theorem next_eq_some {b : β} {f' : FanIn β ι α} :
    f.next = some (b, f') ↔ ∃ bs, f.queued = b :: bs ∧
      f' = { f with queued := bs, ran := f.ran ++ [b] } := by
  unfold next
  cases hq : f.queued with
  | nil => simp
  | cons c cs =>
    simp only [Option.some.injEq, Prod.mk.injEq, List.cons.injEq]
    constructor
    · rintro ⟨rfl, rfl⟩; exact ⟨cs, ⟨rfl, rfl⟩, rfl⟩
    · rintro ⟨bs, ⟨rfl, rfl⟩, rfl⟩; exact ⟨rfl, rfl⟩

theorem Inv.next (h : Inv f) {b : β} {f' : FanIn β ι α} (hn : f.next = some (b, f')) : Inv f' := by
  obtain ⟨bs, hq, rfl⟩ := next_eq_some.mp hn
  refine ⟨h.issued_le, h.count, h.split, h.array, ?_, h.closed, h.waits, fun _ => ?_⟩
  · refine List.Perm.trans ?_ h.blocks
    simp only [hq, List.append_assoc]
    refine List.Perm.append_left _ ?_
    rw [← List.append_assoc]
    exact List.perm_append_singleton _ _
  · exact h.fired (by simp [hq])

/-! ### What is left to come -/

/-- The responses and the blocks of a fan-in that are still to come. -/
def pending (f : FanIn β ι α) : ℕ := f.requests.length + f.group.waiting.length + f.queued.length

@[simp] theorem pending_enter : f.enter.pending = f.pending := rfl

@[simp] theorem pending_issue (i : ι) : (f.issue i).pending = f.pending + 1 := by
  simp only [pending, issue, List.length_append, List.length_singleton]
  omega

@[simp] theorem pending_notify (b : β) : (f.notify b).pending = f.pending + 1 := by
  have hblocks := congrArg List.length (DispatchGroup.notify_blocks b f.group)
  simp only [List.length_append, List.length_singleton] at hblocks
  simp only [pending, notify, List.length_append]
  omega

theorem pending_settle {k : ℕ} (hk : k ∈ f.requests) (o : Option α) :
    (f.settle k o).pending + 1 = f.pending := by
  have hblocks := congrArg List.length (DispatchGroup.leave_blocks f.group)
  have hpos := List.length_pos_of_mem hk
  rw [settle_eq]
  simp only [List.length_append] at hblocks
  simp only [pending, List.length_append, List.length_erase_of_mem hk]
  omega

theorem pending_next {b : β} {f' : FanIn β ι α} (hn : f.next = some (b, f')) :
    f'.pending + 1 = f.pending := by
  obtain ⟨bs, hq, rfl⟩ := next_eq_some.mp hn
  simp only [pending, hq, List.length_cons]
  omega

/-! ### What the invariant gives -/

theorem Inv.count_nonneg (h : Inv f) : 0 ≤ f.group.count := by
  rw [h.count]; positivity

/-- Once a block has been submitted, no request is outstanding. -/
theorem Inv.requests_of_submitted (h : Inv f) (hne : f.queued ++ f.ran ≠ []) : f.requests = [] := by
  have hr : f.registered ≠ [] := h.registered_ne fun hnil => hne (by simp_all)
  have h0 := h.fired hne
  rw [h.count_eq hr] at h0
  simpa using h0

/-- No more blocks have run than were handed to `notify`. -/
theorem Inv.ran_length_le (h : Inv f) : f.ran.length ≤ f.registered.length := by
  have hblocks := h.blocks.length_eq
  simp only [List.length_append] at hblocks
  omega

/-- No block waits in the group for a response that has come. -/
theorem Inv.waiting_nil (h : Inv f) (hreq : f.requests = []) : f.group.waiting = [] := by
  by_contra hne
  have hr : f.registered ≠ [] := h.registered_ne fun hnil => hne (by simp_all)
  have hcount := h.count_eq hr
  exact h.waits hne (by simp [hcount, hreq])

/-- With no request outstanding and no block queued, the blocks that have run
are those handed to `notify`: none is lost in the group. -/
theorem Inv.ran_perm (h : Inv f) (hreq : f.requests = []) (hq : f.queued = []) :
    f.ran.Perm f.registered := by
  simpa [h.waiting_nil hreq, hq] using h.blocks

/-- The responses of a fan-in with no request outstanding. -/
def Inv.delivery (h : Inv f) (hreq : f.requests = []) : Delivery f.issued.length α where
  entries := f.settled
  perm := by simpa [hreq] using h.split

theorem Inv.delivery_array (h : Inv f) (hreq : f.requests = []) :
    (h.delivery hreq).array = f.array := h.array.symm

end FanIn

end Concurrent
