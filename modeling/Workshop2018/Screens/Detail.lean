/-
# DetailViewController

The controller of the item screen, its loads of the item's comments, and the
steps of both. `viewWillAppear` calls `reloadData` while there are no comments;
a call either completes at once, the item having no `kids`, or hands a block
to a global queue. That block enters the group and sends a request for each
id, one after the other, while the responses to those already sent are
handled on the main queue; at its end it hands `group.notify` the block that
publishes.

A step is one of the block's (`background`), the handling of a response, or
the run of a block of the main queue. Blocks of the main queue run one at a
time; the model lets them run in any order, that in which they were queued
included.

Key definitions: `Controller`, `Load`, `Load.step`, `machine`.
-/
import Workshop2018.Lib.Pool
import Workshop2018.Network.Network
import Workshop2018.Screens.Table

namespace Workshop2018
namespace DetailViewController

open Concurrent

/-- The closures that `reloadData` is called with: `viewWillAppear` has the only one. -/
inductive Completion
  | viewWillAppear
  deriving DecidableEq, Repr

/-- The controller's fields and its table view; `item` is an `Item!`, and
`appeared` says that `viewWillAppear` has run. The last two fields are
history: the arrays assigned to `kids` and the completions run, each with the
load it is of. -/
structure Controller where
  item : Option Item := none
  loadingKids : Bool := true
  kids : List Item := []
  appeared : Bool := false
  table : Option Table := none
  trap : Option Trap := none
  published : List (ℕ × List Item) := []
  completed : List ℕ := []
  deriving DecidableEq, Repr

/-! ### The data source -/

def numberOfSections (_g : Controller) : ℕ := 2

def numberOfRowsInSection (g : Controller) : ℕ → ℕ
  | 0 => if g.item = none then 0 else 1
  | 1 => g.kids.length
  | _ => 0

def cellForRowAt (F : Foundation) (g : Controller) (indexPath : IndexPath) :
    Except Trap (ItemCell F) :=
  match indexPath.section with
  | 0 =>
    match g.item with
    | none => .error .unwrappedNil
    | some item => .ok (ItemCell.of F item)
  | 1 => (subscript g.kids indexPath.row).map (ItemCell.of F)
  | _ => .ok { titleLabel := none, byLabel := none, contentLabel := none }

def titleForHeaderInSection (g : Controller) : ℕ → Except Trap (Option String)
  | 1 =>
    if g.loadingKids then
      match g.item with
      | none => .error .unwrappedNil
      | some item =>
        match item.kids with
        | some kids => .ok (some ("Loading " ++ toString kids.length ++ " comments..."))
        | none => .ok (some "Loading comments...")
    else if g.kids.length = 0 then .ok (some "No comments")
    else if g.kids.length = 1 then .ok (some (toString g.kids.length ++ " comment"))
    else .ok (some (toString g.kids.length ++ " comments"))
  | _ => .ok none

/-- `self.tableView.reloadData()`. -/
def reloadTable (g : Controller) : Controller :=
  { g with table := some (Table.reloadData (numberOfSections g) (numberOfRowsInSection g) g.kids) }

/-- `item.didSet`. -/
def setItem (item : Option Item) (g : Controller) : Controller := reloadTable { g with item }

/-! ### Loading -/

/-- Where the block on the global queue is: at the head of its loop with the
ids left, or between `group.enter()` and the request for an id. -/
inductive Thread
  | loop (ids : List ℤ)
  | request (id : ℤ) (ids : List ℤ)
  deriving DecidableEq, Repr

/-- One call of `reloadData`: the completion it was called with, its block on
the global queue until the block ends, and its requests. `kids` is history:
the ids the item had. -/
structure Load where
  completion : Completion
  kids : Option (List ℤ)
  thread : Option Thread
  fetch : Fetch Completion := {}
  deriving DecidableEq, Repr

/-- The completion closures. -/
def complete (r : ℕ) : Completion → Controller → Controller
  | .viewWillAppear, g =>
    reloadTable { g with loadingKids := false, completed := g.completed ++ [r] }

/-- `reloadData`, as load `r`. -/
def reloadData (r : ℕ) (completion : Completion) (g : Controller) : Controller × List Load :=
  match g.item with
  | none => ({ g with trap := some .unwrappedNil }, [])
  | some item =>
    match item.kids with
    | some kids => (g, [{ completion, kids := some kids, thread := some (.loop kids) }])
    | none => (complete r completion g, [{ completion, kids := none, thread := none }])

/-- `super.viewWillAppear`: the table loads its data when it first appears. -/
def superViewWillAppear (g : Controller) : Controller :=
  if g.appeared then g else reloadTable { g with appeared := true }

def viewWillAppear (r : ℕ) (g : Controller) : Controller × List Load :=
  let g := superViewWillAppear g
  if g.kids.length = 0 then reloadData r .viewWillAppear g else (g, [])

inductive UIEvent
  | viewWillAppear
  deriving DecidableEq, Repr

inductive LoadEvent
  | background
  | itemResponse (k : ℕ) (result : Result Json)
  | notified

/-- What a step of a load has the controller do. -/
inductive Effect
  | none
  | publish (array : List Item) (completion : Completion)

/-- A step of a load: its block on the global queue goes on, the response to
the request at position `k` is handled, or the block of `group.notify` runs. -/
def Load.step (F : Foundation) (c : Load) : LoadEvent → Option (Load × Effect)
  | .background =>
    match c.thread with
    | none => none
    | some (.loop (id :: ids)) =>
      some ({ c with thread := some (.request id ids), fetch := c.fetch.enter }, .none)
    | some (.request id ids) =>
      some ({ c with thread := some (.loop ids), fetch := c.fetch.issue (Network.itemRequest id) }, .none)
    | some (.loop []) => some ({ c with thread := none, fetch := c.fetch.notify c.completion }, .none)
  | .itemResponse k result =>
    match Fetch.response F c.fetch k result with
    | none => none
    | some fetch => some ({ c with fetch }, .none)
  | .notified =>
    match c.fetch.next with
    | none => none
    | some (completion, fetch) => some ({ c with fetch }, .publish c.fetch.array completion)

/-- The effects: `group.notify`'s block assigns `kids` and completes. -/
def apply (r : ℕ) : Effect → Controller → Controller
  | .none, g => g
  | .publish array completion, g =>
    complete r completion { g with kids := array, published := g.published ++ [(r, array)] }

def machine (F : Foundation) : Machine Controller Load UIEvent LoadEvent Effect where
  ui r g
    | .viewWillAppear => some (viewWillAppear r g)
  call := Load.step F
  apply := apply

abbrev State := Pool Controller Load

/-- The controller as `prepare(for:sender:)` leaves it, before it appears. -/
def prepared (item : Item) : State := { ctrl := setItem (some item) {} }

/-- The events `es` take the controller prepared with `item` to `s`. -/
def Runs (F : Foundation) (item : Item) (es : List (Event UIEvent LoadEvent)) (s : State) : Prop :=
  run (machine F).step (prepared item) es = some s

/-- The load has no block, no outstanding request and no queued block left. -/
def Load.Quiet (c : Load) : Prop := c.thread = none ∧ c.fetch.requests = [] ∧ c.fetch.queued = []

instance : DecidablePred Load.Quiet := fun c => by unfold Load.Quiet; infer_instance

end DetailViewController
end Workshop2018
