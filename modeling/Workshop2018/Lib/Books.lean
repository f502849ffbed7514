/-
# What is asked for and not yet answered

The books of a step say how it moves what is outstanding: it asks for things
that were not outstanding, by names that are, and takes away the one that it
answers, which was (`Books`). They are kept part by part: those of a part are
books of the whole, under the names that the part's things have there
(`Books.lift`), and if each call of a controller keeps its books then so do
they together (`Machine.books`). So it is with what has been asked for at all,
answered or not (`Machine.sent_iff`).

A fan-in keeps its books: what it sends is outstanding, by its position, until
its response is taken in (`FanIn.Inv.books_sent`, `FanIn.Inv.books_settle`).

Key definitions: `Books`, `anyOf`, `asksIn`, `FanIn.sentSince`.
Key theorems: `Books.lift`, `Machine.books`, `Machine.sent_iff`, `FanIn.Inv.books_sent`, `FanIn.Inv.books_settle`.
-/
import Workshop2018.Lib.FanIn
import Workshop2018.Lib.Pool

namespace Concurrent

variable {τ τ' : Type*} {out out' : τ → Prop} {asks : List τ} {answered : Option τ}

/-- What a step does to the things outstanding: it asks for new ones, and
takes away the one it answers. -/
structure Books (out out' : τ → Prop) (asks : List τ) (answered : Option τ) : Prop where
  nodup : asks.Nodup
  fresh : ∀ t ∈ asks, ¬ out t
  answers : ∀ t, answered = some t → out t
  after : ∀ t, out' t ↔ t ∈ asks ∨ out t ∧ answered ≠ some t

/-- A step that asks for nothing and answers nothing. -/
theorem Books.same (h : ∀ t, out' t ↔ out t) : Books out out' [] none :=
  ⟨List.nodup_nil, fun _ ht => absurd ht List.not_mem_nil, by simp, fun t => by simp [h t]⟩

/-- The books of a part are those of the whole, under the names it has there. -/
theorem Books.lift {f : τ → τ'} (hf : Function.Injective f) (h : Books out out' asks answered)
    {all all' : τ' → Prop} (hall : ∀ t, all (f t) ↔ out t) (hall' : ∀ t, all' (f t) ↔ out' t)
    (hother : ∀ t', (∀ t, f t ≠ t') → (all' t' ↔ all t')) :
    Books all all' (asks.map f) (answered.map f) := by
  refine ⟨(List.nodup_map_iff hf).mpr h.nodup, fun t' ht' => ?_, fun t' ht' => ?_, fun t' => ?_⟩
  · obtain ⟨t, ht, rfl⟩ := List.mem_map.mp ht'
    rw [hall]
    exact h.fresh t ht
  · obtain ⟨t, ht, rfl⟩ := Option.map_eq_some_iff.mp ht'
    rw [hall]
    exact h.answers t ht
  · by_cases hex : ∃ t, f t = t'
    · obtain ⟨t, rfl⟩ := hex
      rw [hall, hall', h.after, List.mem_map_of_injective hf, ne_eq, ne_eq,
        ← Option.map_some, (Option.map_injective hf).eq_iff]
    · push Not at hex
      have hmem : t' ∉ asks.map f := by
        intro hmem
        obtain ⟨t, -, ht⟩ := List.mem_map.mp hmem
        exact hex t ht
      have hne : answered.map f ≠ some t' := by
        intro heq
        obtain ⟨t, -, ht⟩ := Option.map_eq_some_iff.mp heq
        exact hex t ht
      rw [hother t' hex]
      simp [hmem, hne]

/-! ### The books of one call among others -/

section Calls

variable {κ : Type*} {outOf : κ → τ → Prop} {calls new : List κ} {r : ℕ} {c c' : κ}

/-- What is outstanding in one of the calls, by the call and its name there. -/
def anyOf (outOf : κ → τ → Prop) (calls : List κ) (p : ℕ × τ) : Prop :=
  ∃ c, calls[p.1]? = some c ∧ outOf c p.2

theorem anyOf_iff (hc : calls[r]? = some c) (t : τ) : anyOf outOf calls (r, t) ↔ outOf c t := by
  constructor
  · rintro ⟨d, hd, ht⟩
    obtain rfl := Option.some.inj (hc.symm.trans hd)
    exact ht
  · exact fun ht => ⟨c, hc, ht⟩

theorem Books.set (hc : calls[r]? = some c) (h : Books (outOf c) (outOf c') asks answered) :
    Books (anyOf outOf calls) (anyOf outOf (calls.set r c')) (asks.map (Prod.mk r))
      (answered.map (Prod.mk r)) := by
  have hset : ∀ r', (calls.set r c')[r']? = if r' = r then some c' else calls[r']? :=
    Machine.getElem?_set_call (p := ({ ctrl := (), calls } : Pool Unit κ)) hc
  refine h.lift (Prod.mk_right_injective r) (anyOf_iff hc) (anyOf_iff ?_) ?_
  · rw [hset, if_pos rfl]
  · rintro ⟨r', t⟩ hne
    have hr : r' ≠ r := by
      rintro rfl
      exact hne t rfl
    simp only [anyOf, hset, if_neg hr]

/-- Calls that start with nothing outstanding do not change what is. -/
theorem anyOf_append (hnew : ∀ c ∈ new, ∀ t, ¬ outOf c t) (p : ℕ × τ) :
    anyOf outOf (calls ++ new) p ↔ anyOf outOf calls p := by
  constructor
  · rintro ⟨c, hc, ht⟩
    by_cases hlt : p.1 < calls.length
    · rw [List.getElem?_append_left hlt] at hc
      exact ⟨c, hc, ht⟩
    · rw [List.getElem?_append_right (by omega)] at hc
      exact absurd ht (hnew c (List.mem_of_getElem? hc) p.2)
  · rintro ⟨c, hc, ht⟩
    have hlt : p.1 < calls.length := (List.getElem?_eq_some_iff.mp hc).1
    exact ⟨c, by rw [List.getElem?_append_left hlt, hc], ht⟩

end Calls

/-! ### The books of a controller and its calls -/

section Machine

variable {γ κ υ η φ ι α : Type*} {m : Machine γ κ υ η φ} {p q : Pool γ κ} {outOf : κ → τ → Prop}
  {asksOf : κ → η → List (τ × ι)} {answeredOf : η → Option (τ × α)} {ev : Event υ η}

/-- What an event has one of the calls ask for, by the call and its name there. -/
def asksIn (asksOf : κ → η → List (τ × ι)) (calls : List κ) : Event υ η → List ((ℕ × τ) × ι)
  | .ui _ => []
  | .call r e => (calls[r]?.elim [] fun c => asksOf c e).map fun q => ((r, q.1), q.2)

/-- What an event answers, and with what. -/
def answeredIn (answeredOf : η → Option (τ × α)) : Event υ η → Option ((ℕ × τ) × α)
  | .ui _ => none
  | .call r e => (answeredOf e).map fun q => ((r, q.1), q.2)

theorem mem_asksIn {calls : List κ} {r : ℕ} {t : τ} {i : ι} :
    ((r, t), i) ∈ asksIn asksOf calls ev ↔
      ∃ e c, ev = .call r e ∧ calls[r]? = some c ∧ (t, i) ∈ asksOf c e := by
  rcases ev with u | ⟨r', e⟩
  · simp [asksIn]
  · simp only [asksIn, List.mem_map, Prod.exists, Prod.mk.injEq, Event.call.injEq]
    constructor
    · rintro ⟨t', i', hmem, ⟨rfl, rfl⟩, rfl⟩
      rcases hc : calls[r']? with _ | c
      · simp [hc] at hmem
      · exact ⟨e, c, ⟨rfl, rfl⟩, rfl, by simpa [hc] using hmem⟩
    · rintro ⟨e', c, ⟨rfl, rfl⟩, hc, hmem⟩
      exact ⟨t, i, by simpa [hc] using hmem, ⟨rfl, rfl⟩, rfl⟩

theorem answeredIn_iff {r : ℕ} {t : τ} {a : α} :
    answeredIn answeredOf ev = some ((r, t), a) ↔
      ∃ e, ev = .call r e ∧ answeredOf e = some (t, a) := by
  rcases ev with u | ⟨r', e⟩
  · simp [answeredIn]
  · simp only [answeredIn, Option.map_eq_some_iff, Event.call.injEq]
    constructor
    · rintro ⟨⟨t', a'⟩, he, heq⟩
      obtain ⟨hname, rfl⟩ := Prod.mk.inj heq
      obtain ⟨rfl, rfl⟩ := Prod.mk.inj hname
      exact ⟨e, ⟨rfl, rfl⟩, he⟩
    · rintro ⟨e', ⟨rfl, rfl⟩, he⟩
      exact ⟨(t, a), he, rfl⟩

/-- Calls that start with nothing outstanding and keep their books keep those of all. -/
theorem Machine.books
    (hnew : ∀ n u g new, m.ui n p.ctrl u = some (g, new) → ∀ c ∈ new, ∀ t, ¬ outOf c t)
    (hcall : ∀ (r : ℕ) (c : κ) e c' x, p.calls[r]? = some c → m.call c e = some (c', x) →
      Books (outOf c) (outOf c') ((asksOf c e).map Prod.fst) ((answeredOf e).map Prod.fst))
    (h : m.step p ev = some q) :
    Books (anyOf outOf p.calls) (anyOf outOf q.calls) ((asksIn asksOf p.calls ev).map Prod.fst)
      ((answeredIn answeredOf ev).map Prod.fst) := by
  rcases ev with u | ⟨r, e⟩
  · obtain ⟨g, new, hu, rfl⟩ := step_ui.mp h
    exact Books.same fun p => anyOf_append (hnew _ u g new hu) p
  · obtain ⟨c, c', x, hc, hx, rfl⟩ := step_call.mp h
    have hbooks := Books.set hc (hcall r c e c' x hc hx)
    rw [List.map_map, Option.map_map] at hbooks
    simp only [asksIn, answeredIn, hc, Option.elim, List.map_map, Option.map_map]
    exact hbooks

variable {S : κ → τ → ι → Prop} {r : ℕ} {t : τ} {i : ι}

/-- What the calls together have asked for, if each step of one asks for just
what the call has asked for then and had not before. -/
theorem Machine.sent_iff
    (hnew : ∀ n u g new, m.ui n p.ctrl u = some (g, new) → ∀ c ∈ new, ∀ t i, ¬ S c t i)
    (hcall : ∀ (r : ℕ) (c : κ) e c' x, p.calls[r]? = some c → m.call c e = some (c', x) →
      ∀ t i, S c' t i ↔ S c t i ∨ (t, i) ∈ asksOf c e)
    (h : m.step p ev = some q) :
    anyOf (fun c t => S c t i) q.calls (r, t) ↔
      anyOf (fun c t => S c t i) p.calls (r, t) ∨ ((r, t), i) ∈ asksIn asksOf p.calls ev := by
  constructor
  · rintro ⟨c', hc', hsent⟩
    rcases call_cases h hc' with hold | ⟨u, g, new, -, hu, hmem⟩ | ⟨c, e, x, rfl, hc, hx⟩
    · exact Or.inl ⟨c', hold, hsent⟩
    · exact absurd hsent (hnew _ u g new hu c' hmem t i)
    · rcases (hcall r c e c' x hc hx t i).mp hsent with hsent | hask
      · exact Or.inl ⟨c, hc, hsent⟩
      · exact Or.inr (mem_asksIn.mpr ⟨e, c, rfl, hc, hask⟩)
  · rintro (⟨c, hc, hsent⟩ | hask)
    · -- a call that is there makes the step, or stays as it is
      rcases ev with u | ⟨r', e⟩
      · obtain ⟨g, new, -, rfl⟩ := step_ui.mp h
        exact ⟨c, (List.getElem?_append_left (List.getElem?_eq_some_iff.mp hc).1).trans hc, hsent⟩
      · obtain ⟨d, d', x, hd, hx, rfl⟩ := step_call.mp h
        by_cases hr : r = r'
        · subst hr
          obtain rfl := Option.some.inj (hc.symm.trans hd)
          exact ⟨d', (getElem?_set_call hd r).trans (if_pos rfl),
            (hcall r c e d' x hd hx t i).mpr (Or.inl hsent)⟩
        · exact ⟨c, ((getElem?_set_call hd r).trans (if_neg hr)).trans hc, hsent⟩
    · obtain ⟨e, c, rfl, hc, hask⟩ := mem_asksIn.mp hask
      obtain ⟨d, d', x, hd, hx, rfl⟩ := step_call.mp h
      obtain rfl := Option.some.inj (hc.symm.trans hd)
      exact ⟨d', (getElem?_set_call hd r).trans (if_pos rfl),
        (hcall r c e d' x hd hx t i).mpr (Or.inr hask)⟩

/-- If no call asks for something by a name it has used, then nor do they together. -/
theorem Machine.asks_fresh
    (hfresh : ∀ (r : ℕ) (c : κ) e c' x, p.calls[r]? = some c → m.call c e = some (c', x) →
      ∀ t i, (t, i) ∈ asksOf c e → ∀ i', ¬ S c t i')
    (h : m.step p ev = some q) (hask : ((r, t), i) ∈ asksIn asksOf p.calls ev) (i' : ι) :
    ¬ anyOf (fun c t => S c t i') p.calls (r, t) := by
  obtain ⟨e, c, rfl, hc, hask⟩ := mem_asksIn.mp hask
  obtain ⟨c₀, c', x, hc₀, hx, -⟩ := step_call.mp h
  obtain rfl := Option.some.inj (hc.symm.trans hc₀)
  rintro ⟨d, hd, hsent⟩
  obtain rfl := Option.some.inj (hc.symm.trans hd)
  exact hfresh r c e c' x hc hx t i hask i' hsent

end Machine

/-! ### The books of a fan-in -/

namespace FanIn

variable {β ι α : Type*} {f f' : FanIn β ι α} {is : List ι}

/-- The requests that `f'` has sent and `f` had not, by their positions. -/
def sentSince (f f' : FanIn β ι α) : List (ℕ × ι) :=
  (f'.issued.zipIdx.drop f.issued.length).map Prod.swap

theorem sentSince_eq (hissued : f'.issued = f.issued ++ is) :
    sentSince f f' = (is.zipIdx f.issued.length).map Prod.swap := by
  rw [sentSince, hissued, List.zipIdx_append, Nat.zero_add,
    List.drop_left' List.length_zipIdx]

theorem mem_sentSince (hsent : f.issued <+: f'.issued) {k : ℕ} {i : ι} :
    (k, i) ∈ sentSince f f' ↔ f.issued.length ≤ k ∧ f'.issued[k]? = some i := by
  obtain ⟨is, hissued⟩ := hsent
  have hswap : (k, i) ∈ sentSince f f' ↔ (i, k) ∈ is.zipIdx f.issued.length := by
    rw [sentSince_eq hissued.symm, List.mem_map]
    constructor
    · rintro ⟨⟨i', k'⟩, hmem, heq⟩
      obtain ⟨rfl, rfl⟩ := Prod.mk.inj heq
      exact hmem
    · exact fun hmem => ⟨(i, k), hmem, rfl⟩
  rw [hswap, List.mk_mem_zipIdx_iff_le_and_getElem?_sub, ← hissued]
  refine and_congr_right fun hle => ?_
  rw [List.getElem?_append_right hle]

/-- A request has been sent at a position before, or has been since, and not both. -/
theorem getElem?_issued (hsent : f.issued <+: f'.issued) {k : ℕ} {i : ι} :
    f'.issued[k]? = some i ↔ f.issued[k]? = some i ∨ (k, i) ∈ sentSince f f' := by
  rw [mem_sentSince hsent]
  obtain ⟨is, hissued⟩ := hsent
  by_cases hlt : k < f.issued.length
  · rw [← hissued, List.getElem?_append_left hlt]
    exact ⟨Or.inl, fun h => h.resolve_right fun hk => by omega⟩
  · rw [List.getElem?_eq_none (not_lt.mp hlt)]
    exact ⟨fun h => Or.inr ⟨not_lt.mp hlt, h⟩, fun h => (h.resolve_left nofun).2⟩

theorem issueAll_requests (is : List ι) (f : FanIn β ι α) :
    (f.issueAll is).requests = f.requests ++ List.range' f.issued.length is.length := by
  induction is generalizing f with
  | nil => exact (List.append_nil _).symm
  | cons i is ih =>
    refine (ih (f.enter.issue i)).trans ?_
    simp [issue, enter, List.range'_succ]

theorem Inv.requests_nodup (h : Inv f) : f.requests.Nodup :=
  (List.nodup_append.mp (h.split.nodup_iff.mpr List.nodup_range)).1

theorem Inv.requests_lt (h : Inv f) {k : ℕ} (hk : k ∈ f.requests) : k < f.issued.length :=
  List.mem_range.mp (h.split.mem_iff.mp (List.mem_append_left _ hk))

/-- Requests sent are outstanding, by the positions after those sent before. -/
theorem Inv.books_sent (h : Inv f) (hissued : f'.issued = f.issued ++ is)
    (hreq : f'.requests = f.requests ++ List.range' f.issued.length is.length) :
    Books (· ∈ f.requests) (· ∈ f'.requests) ((sentSince f f').map Prod.fst) none := by
  have hnames : (sentSince f f').map Prod.fst = List.range' f.issued.length is.length := by
    rw [sentSince_eq hissued, List.map_map, ← List.zipIdx_map_snd]
    rfl
  rw [hnames]
  refine ⟨List.nodup_range', fun k hk hout => ?_, by simp, fun k => ?_⟩
  · have hlt := h.requests_lt hout
    have hle := (List.mem_range'_1.mp hk).1
    omega
  · simp [hreq, or_comm]

/-- A step that sends nothing and takes nothing in leaves the books as they are. -/
theorem Inv.books_same (h : Inv f) (hissued : f'.issued = f.issued) (hreq : f'.requests = f.requests) :
    Books (· ∈ f.requests) (· ∈ f'.requests) ((sentSince f f').map Prod.fst) none :=
  h.books_sent (hissued.trans (List.append_nil _).symm) (hreq.trans (List.append_nil _).symm)

/-- A response that is taken in is outstanding no more. -/
theorem Inv.books_settle (h : Inv f) {k : ℕ} (hk : k ∈ f.requests) (o : Option α) :
    Books (· ∈ f.requests) (· ∈ (f.settle k o).requests) ((sentSince f (f.settle k o)).map Prod.fst)
      (some k) := by
  have hissued : (f.settle k o).issued = f.issued ++ [] := by
    rw [settle_eq, List.append_nil]
  have hnone : sentSince f (f.settle k o) = [] := sentSince_eq hissued
  rw [hnone, List.map_nil]
  refine ⟨List.nodup_nil, fun _ ht => absurd ht List.not_mem_nil, fun t ht => ?_, fun t => ?_⟩
  · obtain rfl := Option.some.inj ht
    exact hk
  · rw [settle_eq, h.requests_nodup.mem_erase_iff]
    simp [and_comm, eq_comm]

end FanIn

end Concurrent
