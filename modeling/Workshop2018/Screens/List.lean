/-
# ListViewController

The controller of the list screen, its reloads, and the steps of both. Each
`viewWillAppear` while there are no items, and each pull to refresh, calls
`reloadData`, which hands a block to a global queue; the block requests the
ids. The success closure for the ids runs on the main queue: in one go it
enters the group and sends a request for each id and then calls
`group.notify`, so no response is handled in between. The failure closure
queues a block that presents the error. The block of `group.notify` assigns
the array gathered to `items`. Either block ends by running the completion
that `reloadData` was called with.

Any number of reloads may be in flight. Blocks of the main queue run one at a
time; the model lets them run in any order, that in which they were queued
included.

Key definitions: `Controller`, `Call`, `Call.step`, `machine`, `didSelectRowAt`.
-/
import Workshop2018.Screens.Detail

namespace Workshop2018
namespace ListViewController

open Concurrent

/-- The closures that `reloadData` is called with, by the method that has them. -/
inductive Completion
  | viewWillAppear
  | pullToRefresh
  deriving DecidableEq, Repr

/-- A `UIAlertController` with its one action. -/
structure Alert where
  title : String
  message : String
  action : String
  deriving DecidableEq, Repr

/-- The controller's fields, its refresh control (`refreshing`), its table
view and the alerts it has presented; `appeared` says that `viewWillAppear`
has run. The last two fields are history: the arrays assigned to `items` and
the completions run, each with the reload it is of. -/
structure Controller where
  items : List Item := []
  loadingItems : Bool := true
  refreshing : Bool := false
  appeared : Bool := false
  table : Option Table := none
  presented : List Alert := []
  published : List (ℕ × List Item) := []
  completed : List ℕ := []
  deriving DecidableEq, Repr

/-! ### The data source and the delegate -/

def numberOfSections (g : Controller) : ℕ := if g.loadingItems then 1 else g.items.length

def numberOfRowsInSection (g : Controller) (_section : ℕ) : ℕ := if g.loadingItems then 0 else 1

def cellForRowAt (F : Foundation) (g : Controller) (indexPath : IndexPath) :
    Except Trap (ItemCell F) :=
  (subscript g.items indexPath.section).map (ItemCell.of F)

def titleForHeaderInSection (g : Controller) : ℕ → Option String
  | 0 => if g.loadingItems then some "Loading ..." else none
  | _ => none

/-- `self.tableView.reloadData()`. -/
def reloadTable (g : Controller) : Controller :=
  { g with table := some (Table.reloadData (numberOfSections g) (numberOfRowsInSection g) g.items) }

/-- The `sender` of a segue, an `Any`. -/
inductive Sender
  | item (item : Item)
  | other

/-- `sender as? Item`. -/
def Sender.asItem : Option Sender → Option Item
  | some (.item i) => some i
  | _ => none

/-- `prepare(for:sender:)`, on the segue's destination. -/
def prepare (identifier : String) (sender : Option Sender)
    (detailVC : DetailViewController.Controller) : DetailViewController.Controller :=
  if identifier = "item.detail" then DetailViewController.setItem (Sender.asItem sender) detailVC
  else detailVC

/-- `didSelectRowAt`: the segue it performs prepares a new detail controller. -/
def didSelectRowAt (g : Controller) (indexPath : IndexPath) :
    Except Trap DetailViewController.Controller :=
  (subscript g.items indexPath.section).map fun item => prepare "item.detail" (some (.item item)) {}

/-! ### Loading -/

/-- How far a reload has come before its items: its block on the global queue
has not run; the ids request is outstanding; the success closure has run, with
the ids; the failure closure has run. -/
inductive Stage
  | dispatched
  | asking
  | fetching (itemIds : List ℤ)
  | failing
  deriving DecidableEq, Repr

/-- One call of `reloadData`: the completion it was called with, how far it
has come, the requests for its items, and the errors of the failure blocks on
the main queue. `alerted` is history: those of the failure blocks that have run. -/
structure Call where
  completion : Completion
  stage : Stage := .dispatched
  fetch : Fetch Completion := {}
  alerts : List SwiftError := []
  alerted : List SwiftError := []
  deriving DecidableEq, Repr

/-- The completion closures. -/
def complete (r : ℕ) : Completion → Controller → Controller
  | .viewWillAppear, g =>
    reloadTable { g with loadingItems := false, completed := g.completed ++ [r] }
  | .pullToRefresh, g =>
    reloadTable { g with refreshing := false, completed := g.completed ++ [r] }

def reloadData (completion : Completion) : Call := { completion }

/-- `super.viewWillAppear`: the table loads its data when it first appears. -/
def superViewWillAppear (g : Controller) : Controller :=
  if g.appeared then g else reloadTable { g with appeared := true }

def viewWillAppear (g : Controller) : Controller × List Call :=
  let g := superViewWillAppear g
  if g.items.length = 0 then (g, [reloadData .viewWillAppear]) else (g, [])

def pullToRefresh (g : Controller) : Controller × List Call := (g, [reloadData .pullToRefresh])

/-- The user's events: the view appears, or the user pulls the refresh
control, which is refreshing from then on. -/
inductive UIEvent
  | viewWillAppear
  | pullToRefresh
  deriving DecidableEq, Repr

inductive CallEvent
  | background
  | idsResponse (result : Result Json)
  | itemResponse (k : ℕ) (result : Result Json)
  | notified
  | failed

/-- What a step of a reload has the controller do. -/
inductive Effect
  | none
  | publish (array : List Item) (completion : Completion)
  | present (error : SwiftError) (completion : Completion)

/-- The success closure for the ids. -/
def Call.success (c : Call) (itemIds : List ℤ) : Call :=
  { c with
    stage := .fetching itemIds
    fetch := (FanIn.issueAll (itemIds.map Network.itemRequest) {}).notify c.completion }

/-- The failure closure for the ids. -/
def Call.failure (c : Call) (error : SwiftError) : Call :=
  { c with stage := .failing, alerts := c.alerts ++ [error] }

/-- A step of a reload: its block on the global queue runs, the response to
the ids request or to the item request at position `k` is handled, or one of
its blocks on the main queue runs, that of `group.notify` or the failure block. -/
def Call.step (F : Foundation) (c : Call) : CallEvent → Option (Call × Effect)
  | .background =>
    if c.stage = .dispatched then some ({ c with stage := .asking }, .none) else none
  | .idsResponse result =>
    if c.stage = .asking then
      some (Network.askstoriesItemsIds c.success c.failure result, .none)
    else none
  | .itemResponse k result =>
    match Fetch.response F c.fetch k result with
    | none => none
    | some fetch => some ({ c with fetch }, .none)
  | .notified =>
    match c.fetch.next with
    | none => none
    | some (completion, fetch) => some ({ c with fetch }, .publish c.fetch.array completion)
  | .failed =>
    match c.alerts with
    | [] => none
    | error :: alerts =>
      some ({ c with alerts, alerted := c.alerted ++ [error] }, .present error c.completion)

/-- The alert of a failure block. -/
def alert (F : Foundation) (error : SwiftError) : Alert where
  title := "Error"
  message := F.localizedDescription error
  action := "Dismiss"

/-- The effects: `group.notify`'s block assigns `items` and completes, the
failure block presents the error and completes. -/
def apply (F : Foundation) (r : ℕ) : Effect → Controller → Controller
  | .none, g => g
  | .publish array completion, g =>
    complete r completion { g with items := array, published := g.published ++ [(r, array)] }
  | .present error completion, g =>
    complete r completion { g with presented := g.presented ++ [alert F error] }

def machine (F : Foundation) : Machine Controller Call UIEvent CallEvent Effect where
  ui _ g
    | .viewWillAppear => some (viewWillAppear g)
    | .pullToRefresh => some (pullToRefresh { g with refreshing := true })
  call := Call.step F
  apply := apply F

abbrev State := Pool Controller Call

/-- The events `es` take a new controller to `s`. -/
def Runs (F : Foundation) (es : List (Event UIEvent CallEvent)) (s : State) : Prop :=
  run (machine F).step { ctrl := {} } es = some s

/-- The reload has no block, no outstanding request and no queued block left. -/
def Call.Quiet (c : Call) : Prop :=
  c.stage ≠ .dispatched ∧ c.stage ≠ .asking ∧ c.fetch.requests = [] ∧ c.fetch.queued = [] ∧
    c.alerts = []

instance : DecidablePred Call.Quiet := fun c => by unfold Call.Quiet; infer_instance

end ListViewController
end Workshop2018
