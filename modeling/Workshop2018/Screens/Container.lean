/-
# ContainerViewController

The root of the window, which holds the splash screen and then the list. It
contains one view controller and replaces it by another, with or without an
animation. With one, the old controller is removed by the completion of the
animation; until then both are children, and any number of animations may be
under way. The model lets them complete in any order.

A controller that is set while it is on its way out is removed by the
completion that was waiting, and one that is set in its own place is removed
with itself. The views it fades out it never makes opaque again, save for
`newModalBottom`. So the controller that was set last is the one child there
is, once no animation is under way, just if it was neither the one contained
nor on its way out, and its view shows just if it had not been faded out either
(`shows_current`). The launch does neither, so it ends with the list's
controller and nothing else (`launch_shows`).

Of UIKit the model has the children, the subviews, from back to front, and
which views have `alpha` 0. A view is named by its controller. A view whose
sibling is no subview goes to the front: nothing below depends on where.

Key definitions: `set`, `viewDidLoad`, `machine`, `leaving`, `Lost`, `Blank`, `didFinishLaunching`.
Key theorems: `step_moves`, `inv`, `contained_iff`, `shown_iff`, `shows_current`, `launch_shows`.
-/
import Workshop2018.Lib.Progress

namespace Workshop2018
namespace ContainerViewController

open Concurrent

/-- A `UIViewController`, by its identity. -/
abbrev ViewController := ℕ

inductive Animation
  | none
  | crossDisolve
  | newModalBottom
  | oldModalBottom
  deriving DecidableEq, Repr

structure Controller where
  viewController : ViewController
  isViewLoaded : Bool := false
  childViewControllers : List ViewController := []
  subviews : List ViewController := []
  faded : List ViewController := []
  deriving DecidableEq, Repr

/-! ### UIKit -/

/-- The list without the controller. -/
def without (v : ViewController) (vs : List ViewController) : List ViewController :=
  vs.filter (· ≠ v)

/-- A child that is there already is removed before it is added. -/
def addChildViewController (v : ViewController) (g : Controller) : Controller :=
  { g with childViewControllers := without v g.childViewControllers ++ [v] }

def removeFromParentViewController (v : ViewController) (g : Controller) : Controller :=
  { g with childViewControllers := without v g.childViewControllers }

def removeFromSuperview (v : ViewController) (g : Controller) : Controller :=
  { g with subviews := without v g.subviews }

/-- `v` just behind or in front of its sibling. -/
def insertBeside (front : Bool) (v sibling : ViewController) :
    List ViewController → List ViewController
  | [] => [v]
  | w :: ws =>
    if w = sibling then (if front then w :: v :: ws else v :: w :: ws)
    else w :: insertBeside front v sibling ws

def insertSubviewAtBack (v : ViewController) (g : Controller) : Controller :=
  { g with subviews := v :: without v g.subviews }

def insertSubviewBelow (v sibling : ViewController) (g : Controller) : Controller :=
  { g with subviews := insertBeside false v sibling (without v g.subviews) }

def insertSubviewAbove (v sibling : ViewController) (g : Controller) : Controller :=
  { g with subviews := insertBeside true v sibling (without v g.subviews) }

def addSubview (v : ViewController) (g : Controller) : Controller :=
  { g with subviews := without v g.subviews ++ [v] }

/-- `view.alpha = 0.0`. -/
def fadeOut (v : ViewController) (g : Controller) : Controller :=
  { g with faded := v :: without v g.faded }

/-- `view.alpha = 1.0`. -/
def fadeIn (v : ViewController) (g : Controller) : Controller :=
  { g with faded := without v g.faded }

/-! ### The container -/

/-- An animation from `old` to `new`, whose completion may have run. -/
structure Transition where
  old : ViewController
  new : ViewController
  completed : Bool := false
  deriving DecidableEq, Repr

/-- `set`: the animations' blocks run at once, their completions when they end. -/
def set (v : ViewController) (animation : Animation) (g : Controller) :
    Controller × List Transition :=
  if g.isViewLoaded then
    let oldVC := g.viewController
    let g := addChildViewController v { g with viewController := v }
    match animation with
    | .none =>
      (removeFromParentViewController oldVC (insertSubviewAtBack v (removeFromSuperview oldVC g)), [])
    | .crossDisolve =>
      (fadeOut oldVC (insertSubviewBelow v oldVC g), [{ old := oldVC, new := v }])
    | .newModalBottom =>
      (fadeIn v (insertSubviewAbove v oldVC (fadeOut v g)), [{ old := oldVC, new := v }])
    | .oldModalBottom =>
      (fadeOut oldVC (insertSubviewBelow v oldVC g), [{ old := oldVC, new := v }])
  else ({ g with viewController := v }, [])

/-- `viewDidLoad`, of a view that has just been loaded. -/
def viewDidLoad (g : Controller) : Controller :=
  let g := { g with isViewLoaded := true }
  if g.viewController ∉ g.childViewControllers then
    addSubview g.viewController (addChildViewController g.viewController g)
  else g

/-- The completion of an animation. -/
def completion (oldVC : ViewController) (g : Controller) : Controller :=
  removeFromParentViewController oldVC (removeFromSuperview oldVC g)

inductive UIEvent
  | viewDidLoad
  | set (v : ViewController) (animation : Animation)
  deriving DecidableEq, Repr

inductive TransitionEvent
  | completion
  deriving DecidableEq, Repr

/-- The container is a controller whose calls are the animations under way;
their effect names the controller that is removed. -/
def machine : Machine Controller Transition UIEvent TransitionEvent ViewController where
  ui _ g
    | .viewDidLoad => if g.isViewLoaded then none else some (viewDidLoad g, [])
    | .set v animation => some (set v animation g)
  call t
    | .completion => if t.completed then none else some ({ t with completed := true }, t.old)
  apply _ oldVC g := completion oldVC g

abbrev State := Pool Controller Transition

/-- The events take a container made for `v₀` to `s`. -/
def Runs (v₀ : ViewController) (es : List (Event UIEvent TransitionEvent)) (s : State) : Prop :=
  run machine.step { ctrl := { viewController := v₀ } } es = some s

/-- The controllers that a completion will remove. -/
def leaving (s : State) : List ViewController :=
  (s.calls.filter fun t => !t.completed).map Transition.old

variable {v₀ v w sibling : ViewController} {a : Animation} {g : Controller} {t : Transition}
  {vs : List ViewController} {es : List (Event UIEvent TransitionEvent)}
  {e : Event UIEvent TransitionEvent} {s s' : State} {r : ℕ}

/-! ### What the operations do -/

@[simp] theorem mem_without : w ∈ without v vs ↔ w ∈ vs ∧ w ≠ v := by simp [without]

theorem nodup_without (h : vs.Nodup) (v : ViewController) : (without v vs).Nodup := h.filter _

theorem insertBeside_perm (front : Bool) (v sibling : ViewController) (vs : List ViewController) :
    (insertBeside front v sibling vs).Perm (v :: vs) := by
  induction vs with
  | nil => exact List.Perm.refl _
  | cons w ws ih =>
    unfold insertBeside
    by_cases hw : w = sibling
    · rw [if_pos hw]
      cases front
      · exact List.Perm.refl _
      · exact List.Perm.swap v w ws
    · rw [if_neg hw]
      exact (ih.cons w).trans (List.Perm.swap v w ws)

/-- The view that is inserted is a subview once, and the others stay. -/
theorem insertBeside_without (front : Bool) (h : vs.Nodup) :
    (insertBeside front v sibling (without v vs)).Nodup ∧
      ∀ w, w ∈ insertBeside front v sibling (without v vs) ↔ w = v ∨ w ∈ vs := by
  have hperm := insertBeside_perm front v sibling (without v vs)
  refine ⟨hperm.nodup_iff.mpr (List.nodup_cons.mpr ⟨by simp, nodup_without h v⟩), fun w => ?_⟩
  rw [hperm.mem_iff, List.mem_cons, mem_without]
  tauto

theorem append_without (h : vs.Nodup) :
    (without v vs ++ [v]).Nodup ∧ ∀ w, w ∈ without v vs ++ [v] ↔ w = v ∨ w ∈ vs := by
  constructor
  · rw [List.nodup_append]
    refine ⟨nodup_without h v, List.nodup_singleton v, fun x hx y hy => ?_⟩
    rw [List.mem_singleton.mp hy]
    exact (mem_without.mp hx).2
  · intro w
    rw [List.mem_append, mem_without, List.mem_singleton]
    tauto

theorem set_unloaded (hl : g.isViewLoaded = false) :
    set v a g = ({ g with viewController := v }, []) := by
  unfold set
  rw [if_neg (by simp [hl])]

theorem set_viewController (v : ViewController) (a : Animation) (g : Controller) :
    (set v a g).1.viewController = v ∧ (set v a g).1.isViewLoaded = g.isViewLoaded := by
  unfold set
  split
  · cases a <;> exact ⟨rfl, rfl⟩
  · exact ⟨rfl, rfl⟩

/-- The old controller is on its way out, if there is an animation. -/
theorem set_transitions (hl : g.isViewLoaded = true) :
    (set v a g).2 = if a = .none then [] else [{ old := g.viewController, new := v }] := by
  unfold set
  rw [if_pos hl]
  cases a <;> rfl

theorem set_children (hl : g.isViewLoaded = true) (h : g.childViewControllers.Nodup) :
    (set v a g).1.childViewControllers.Nodup ∧
      ∀ w, w ∈ (set v a g).1.childViewControllers ↔
        (w = v ∨ w ∈ g.childViewControllers) ∧ (a = .none → w ≠ g.viewController) := by
  obtain ⟨hnodup, hmem⟩ := append_without (v := v) h
  unfold set
  rw [if_pos hl]
  cases a with
  | none =>
    refine ⟨nodup_without hnodup _, fun w => ?_⟩
    show w ∈ without g.viewController (without v g.childViewControllers ++ [v]) ↔ _
    rw [mem_without, hmem]
    simp
  | _ => exact ⟨hnodup, fun w => (hmem w).trans (by simp)⟩

theorem set_subviews (hl : g.isViewLoaded = true) (h : g.subviews.Nodup) :
    (set v a g).1.subviews.Nodup ∧
      ∀ w, w ∈ (set v a g).1.subviews ↔
        w = v ∨ w ∈ g.subviews ∧ (a = .none → w ≠ g.viewController) := by
  unfold set
  rw [if_pos hl]
  cases a with
  | none =>
    show (v :: without v (without g.viewController g.subviews)).Nodup ∧ ∀ w,
      w ∈ v :: without v (without g.viewController g.subviews) ↔ _
    refine ⟨List.nodup_cons.mpr ⟨by simp, nodup_without (nodup_without h _) _⟩, fun w => ?_⟩
    rw [List.mem_cons, mem_without, mem_without]
    simp only [forall_const]
    tauto
  | crossDisolve => exact (insertBeside_without false h).imp_right fun hmem w => (hmem w).trans (by simp)
  | newModalBottom => exact (insertBeside_without true h).imp_right fun hmem w => (hmem w).trans (by simp)
  | oldModalBottom => exact (insertBeside_without false h).imp_right fun hmem w => (hmem w).trans (by simp)

/-- The old view is faded out, or the new one is made opaque, or neither. -/
theorem set_faded (hl : g.isViewLoaded = true) :
    w ∈ (set v a g).1.faded ↔
      w ∈ g.faded ∧ ¬ (a = .newModalBottom ∧ w = v) ∨
        w = g.viewController ∧ (a = .crossDisolve ∨ a = .oldModalBottom) := by
  have hout : w ∈ g.viewController :: without g.viewController g.faded ↔
      w ∈ g.faded ∨ w = g.viewController := by
    rw [List.mem_cons, mem_without]
    tauto
  unfold set
  rw [if_pos hl]
  cases a with
  | none => simp [removeFromParentViewController, insertSubviewAtBack, removeFromSuperview,
      addChildViewController]
  | crossDisolve => exact hout.trans (by simp)
  | newModalBottom =>
    show w ∈ without v (v :: without v g.faded) ↔ _
    rw [mem_without, List.mem_cons, mem_without]
    simp only [true_and, reduceCtorEq, or_self, and_false, or_false]
    tauto
  | oldModalBottom => exact hout.trans (by simp)

/-- The steps of the container, each with what it needs and what it changes. -/
inductive Moves (s : State) : Event UIEvent TransitionEvent → State → Prop
  | load (hl : s.ctrl.isViewLoaded = false) :
      Moves s (.ui .viewDidLoad) { s with ctrl := viewDidLoad s.ctrl }
  | set (v : ViewController) (a : Animation) :
      Moves s (.ui (.set v a))
        { ctrl := (set v a s.ctrl).1, calls := s.calls ++ (ContainerViewController.set v a s.ctrl).2 }
  | completion (r : ℕ) (t : Transition) (ht : s.calls[r]? = some t) (hc : t.completed = false) :
      Moves s (.call r .completion)
        { ctrl := completion t.old s.ctrl, calls := s.calls.set r { t with completed := true } }

theorem step_moves (h : machine.step s e = some s') : Moves s e s' := by
  rcases e with (_ | ⟨v, a⟩) | ⟨r, ⟨⟩⟩
  · obtain ⟨g, new, hu, rfl⟩ := Machine.step_ui.mp h
    have hu : (if s.ctrl.isViewLoaded then none else some (viewDidLoad s.ctrl, [])) = some (g, new) := hu
    by_cases hl : s.ctrl.isViewLoaded = true
    · rw [if_pos hl] at hu
      cases hu
    · rw [if_neg hl] at hu
      obtain ⟨rfl, rfl⟩ := Prod.mk.inj (Option.some.inj hu)
      rw [List.append_nil]
      exact .load (by simpa using hl)
  · obtain ⟨g, new, hu, rfl⟩ := Machine.step_ui.mp h
    obtain ⟨rfl, rfl⟩ := Prod.ext_iff.mp (Option.some.inj hu)
    exact .set v a
  · obtain ⟨t, t', oldVC, ht, hx, rfl⟩ := Machine.step_call.mp h
    have hx : (if t.completed then none else some ({ t with completed := true }, t.old)) =
      some (t', oldVC) := hx
    by_cases hc : t.completed = true
    · rw [if_pos hc] at hx
      cases hx
    · rw [if_neg hc] at hx
      obtain ⟨rfl, rfl⟩ := Prod.mk.inj (Option.some.inj hx)
      exact .completion r t ht (by simpa using hc)

theorem mem_leaving : w ∈ leaving s ↔ ∃ t ∈ s.calls, t.completed = false ∧ t.old = w := by
  simp [leaving, and_assoc]

/-- With an animation the controller that was contained is on its way out. -/
theorem leaving_set (hl : s.ctrl.isViewLoaded = true) :
    w ∈ leaving { ctrl := g, calls := s.calls ++ (set v a s.ctrl).2 } ↔
      w ∈ leaving s ∨ a ≠ .none ∧ w = s.ctrl.viewController := by
  rw [set_transitions hl]
  simp only [mem_leaving, List.mem_append]
  by_cases ha : a = .none
  · simp [ha]
  · rw [if_neg ha]
    simp only [List.mem_singleton, or_and_right, exists_or, exists_eq_left, ha, ne_eq, not_false_eq_true,
      true_and, eq_comm]

/-- The controller that a completion removes was on its way out; the others still are. -/
theorem leaving_completion (ht : s.calls[r]? = some t) (hc : t.completed = false) :
    w ∈ leaving s ↔ w = t.old ∨
      w ∈ leaving { ctrl := g, calls := s.calls.set r { t with completed := true } } := by
  have hmem : t ∈ s.calls := List.mem_of_getElem? ht
  simp only [mem_leaving]
  constructor
  · rintro ⟨t', ht', hc', rfl⟩
    obtain ⟨r', hr'⟩ := List.mem_iff_getElem?.mp ht'
    by_cases hr : r' = r
    · rw [hr, ht] at hr'
      exact Or.inl (by rw [Option.some.inj hr'])
    · refine Or.inr ⟨t', List.mem_of_getElem? (i := r') ?_, hc', rfl⟩
      rw [Machine.getElem?_set_call ht, if_neg hr, hr']
  · rintro (rfl | ⟨t', ht', hc', rfl⟩)
    · exact ⟨t, hmem, hc, rfl⟩
    · rcases List.mem_or_eq_of_mem_set ht' with hold | rfl
      · exact ⟨t', hold, hc', rfl⟩
      · cases hc'

/-! ### What the container holds -/

/-- Each of the controllers is there once, and is the one contained or on its way out. -/
def Held (s : State) (vs : List ViewController) : Prop :=
  vs.Nodup ∧ ∀ w ∈ vs, w = s.ctrl.viewController ∨ w ∈ leaving s

structure Inv (s : State) : Prop where
  unloaded : s.ctrl.isViewLoaded = false → s.ctrl.childViewControllers = [] ∧
    s.ctrl.subviews = [] ∧ s.ctrl.faded = [] ∧ s.calls = []
  children : Held s s.ctrl.childViewControllers
  subviews : Held s s.ctrl.subviews

theorem viewDidLoad_eq (h : Inv s) (hl : s.ctrl.isViewLoaded = false) :
    viewDidLoad s.ctrl = { s.ctrl with
      isViewLoaded := true
      childViewControllers := [s.ctrl.viewController]
      subviews := [s.ctrl.viewController] } := by
  obtain ⟨hchildren, hsubviews, -, -⟩ := h.unloaded hl
  simp [viewDidLoad, hchildren, hsubviews, addSubview, addChildViewController, without]

/-- What is left of what was held, with the new controller, is held after it is set. -/
theorem Held.set (h : Held s vs) (hl : s.ctrl.isViewLoaded = true) {vs' : List ViewController}
    (hnodup : vs'.Nodup)
    (hmem : ∀ w ∈ vs', w = v ∨ w ∈ vs ∧ (a = .none → w ≠ s.ctrl.viewController)) :
    Held { ctrl := (ContainerViewController.set v a s.ctrl).1
           calls := s.calls ++ (ContainerViewController.set v a s.ctrl).2 } vs' := by
  refine ⟨hnodup, fun w hw => ?_⟩
  show w = (ContainerViewController.set v a s.ctrl).1.viewController ∨ _
  rw [(set_viewController v a s.ctrl).1, leaving_set hl]
  rcases hmem w hw with hv | ⟨hold, hnone⟩
  · exact Or.inl hv
  · rcases h.2 w hold with hcur | hleaving
    · exact Or.inr (Or.inr ⟨fun ha => hnone ha hcur, hcur⟩)
    · exact Or.inr (Or.inl hleaving)

theorem Held.completion (h : Held s vs) (ht : s.calls[r]? = some t) (hc : t.completed = false) :
    Held { ctrl := completion t.old s.ctrl, calls := s.calls.set r { t with completed := true } }
      (without t.old vs) := by
  refine ⟨nodup_without h.1 _, fun w hw => ?_⟩
  obtain ⟨hw, hne⟩ := mem_without.mp hw
  rcases h.2 w hw with hcur | hleaving
  · exact Or.inl hcur
  · exact Or.inr (((leaving_completion ht hc).mp hleaving).resolve_left hne)

theorem Inv.step (h : Inv s) (hstep : machine.step s e = some s') : Inv s' := by
  cases step_moves hstep with
  | load hl =>
    have hheld : ∀ g : Controller, g.viewController = s.ctrl.viewController →
        Held { s with ctrl := g } [s.ctrl.viewController] := by
      intro g hg
      exact ⟨List.nodup_singleton _, fun w hw => Or.inl ((List.mem_singleton.mp hw).trans hg.symm)⟩
    rw [viewDidLoad_eq h hl]
    exact ⟨nofun, hheld _ rfl, hheld _ rfl⟩
  | set v a =>
    by_cases hl : s.ctrl.isViewLoaded = true
    · have hloaded := (set_viewController v a s.ctrl).2.trans hl
      obtain ⟨hchildren, hmem⟩ := set_children (v := v) (a := a) hl h.children.1
      obtain ⟨hsubviews, hmem'⟩ := set_subviews (v := v) (a := a) hl h.subviews.1
      refine ⟨fun hl' => ?_, h.children.set hl hchildren fun w hw => ?_,
        h.subviews.set hl hsubviews fun w hw => (hmem' w).mp hw⟩
      · rw [hloaded] at hl'
        cases hl'
      · obtain ⟨hw, hnone⟩ := (hmem w).mp hw
        exact hw.imp_right fun hw => ⟨hw, hnone⟩
    · have hl : s.ctrl.isViewLoaded = false := by simpa using hl
      obtain ⟨hchildren, hsubviews, hfaded, hcalls⟩ := h.unloaded hl
      rw [set_unloaded hl]
      refine ⟨fun _ => ⟨hchildren, hsubviews, hfaded, by simp [hcalls]⟩, ?_, ?_⟩
      · simp [Held, hchildren]
      · simp [Held, hsubviews]
  | completion r t ht hc =>
    refine ⟨fun hl => ?_, h.children.completion ht hc, h.subviews.completion ht hc⟩
    -- there is no animation before the view is loaded
    have hcalls := (h.unloaded hl).2.2.2
    rw [hcalls] at ht
    cases ht

theorem inv (h : Runs v₀ es s) : Inv s := by
  refine run_invariant (I := Inv) ?_ (fun s e s' hs hstep => hs.step hstep) h
  exact ⟨fun _ => ⟨rfl, rfl, rfl, rfl⟩, ⟨List.nodup_nil, nofun⟩, ⟨List.nodup_nil, nofun⟩⟩

/-- When no animation is under way there is nothing but the controller contained. -/
theorem Held.of_rest (h : Held s vs) (hrest : leaving s = []) :
    vs = if s.ctrl.viewController ∈ vs then [s.ctrl.viewController] else [] := by
  have hall : ∀ w ∈ vs, w = s.ctrl.viewController := by
    intro w hw
    simpa [hrest] using h.2 w hw
  by_cases hv : s.ctrl.viewController ∈ vs
  · rw [if_pos hv]
    exact List.perm_singleton.mp ((List.perm_ext_iff_of_nodup h.1 (List.nodup_singleton _)).mpr
      fun w => ⟨fun hw => List.mem_singleton.mpr (hall w hw), fun hw => List.mem_singleton.mp hw ▸ hv⟩)
  · rw [if_neg hv]
    exact List.eq_nil_iff_forall_not_mem.mpr fun w hw => hv (hall w hw ▸ hw)

/-! ### What was set last -/

/-- The event sets a controller. -/
def IsSet : Event UIEvent TransitionEvent → Prop
  | .ui (.set _ _) => True
  | _ => False

/-- The event sets the controller that is contained, or one on its way out. -/
def Lost (s : State) : Event UIEvent TransitionEvent → Prop
  | .ui (.set v _) =>
    s.ctrl.isViewLoaded = true ∧ (v = s.ctrl.viewController ∨ v ∈ leaving s)
  | _ => False

/-- The event sets a controller whose view a completion will remove, or which
is faded out and not made opaque. -/
def Blank (s : State) : Event UIEvent TransitionEvent → Prop
  | .ui (.set v a) =>
    s.ctrl.isViewLoaded = true ∧ (v = s.ctrl.viewController ∧ a ≠ .none ∨ v ∈ leaving s ∨
      v ∈ s.ctrl.faded ∧ a ≠ .newModalBottom)
  | _ => False

/-- The controller contained is a child, and stays one if no other is set. -/
def Contained (s : State) : Prop :=
  s.ctrl.viewController ∈ s.ctrl.childViewControllers ∧ s.ctrl.viewController ∉ leaving s

/-- Its view is there to be seen, and stays so. -/
def Shown (s : State) : Prop :=
  s.ctrl.viewController ∈ s.ctrl.subviews ∧ s.ctrl.viewController ∉ leaving s ∧
    s.ctrl.viewController ∉ s.ctrl.faded

theorem contained_set (hinv : Inv s) (hl : s.ctrl.isViewLoaded = true) :
    Contained { ctrl := (set v a s.ctrl).1, calls := s.calls ++ (set v a s.ctrl).2 } ↔
      ¬ (v = s.ctrl.viewController ∨ v ∈ leaving s) := by
  unfold Contained
  show (set v a s.ctrl).1.viewController ∈ _ ∧ (set v a s.ctrl).1.viewController ∉ _ ↔ _
  rw [(set_viewController v a s.ctrl).1, leaving_set hl, (set_children hl hinv.children.1).2]
  by_cases ha : a = .none
  · simp [ha]
  · simp [ha]
    tauto

theorem shown_set (hinv : Inv s) (hl : s.ctrl.isViewLoaded = true) :
    Shown { ctrl := (set v a s.ctrl).1, calls := s.calls ++ (set v a s.ctrl).2 } ↔
      ¬ (v = s.ctrl.viewController ∧ a ≠ .none ∨ v ∈ leaving s ∨
        v ∈ s.ctrl.faded ∧ a ≠ .newModalBottom) := by
  unfold Shown
  show (set v a s.ctrl).1.viewController ∈ _ ∧ (set v a s.ctrl).1.viewController ∉ _ ∧
    (set v a s.ctrl).1.viewController ∉ (set v a s.ctrl).1.faded ↔ _
  rw [(set_viewController v a s.ctrl).1, leaving_set hl, (set_subviews hl hinv.subviews.1).2,
    set_faded hl]
  cases a <;> simp <;> tauto

theorem contained_completion (ht : s.calls[r]? = some t) (hc : t.completed = false) :
    Contained { ctrl := completion t.old s.ctrl, calls := s.calls.set r { t with completed := true } } ↔
      Contained s := by
  unfold Contained
  rw [leaving_completion (s := s) (g := completion t.old s.ctrl) ht hc]
  show s.ctrl.viewController ∈ without t.old s.ctrl.childViewControllers ∧
    s.ctrl.viewController ∉ _ ↔ _
  rw [mem_without]
  tauto

theorem shown_completion (ht : s.calls[r]? = some t) (hc : t.completed = false) :
    Shown { ctrl := completion t.old s.ctrl, calls := s.calls.set r { t with completed := true } } ↔
      Shown s := by
  unfold Shown
  rw [leaving_completion (s := s) (g := completion t.old s.ctrl) ht hc]
  show s.ctrl.viewController ∈ without t.old s.ctrl.subviews ∧
    s.ctrl.viewController ∉ _ ∧ s.ctrl.viewController ∉ s.ctrl.faded ↔ _
  rw [mem_without]
  tauto

/-- Once its view is loaded, a container has what a condition says if each
`set` decides it, and loading makes it so. -/
theorem run_iff_atLast_set {I : State → Prop} {C : State → Event UIEvent TransitionEvent → Prop}
    (hC : ∀ s e, C s e → s.ctrl.isViewLoaded = true)
    (hload : ∀ s, Inv s → s.ctrl.isViewLoaded = false → I { s with ctrl := viewDidLoad s.ctrl })
    (hset : ∀ s v a, Inv s → s.ctrl.isViewLoaded = true →
      (I { ctrl := (set v a s.ctrl).1, calls := s.calls ++ (set v a s.ctrl).2 } ↔
        ¬ C s (.ui (.set v a))))
    (hcompletion : ∀ (s : State) r t, s.calls[r]? = some t → t.completed = false →
      (I { ctrl := completion t.old s.ctrl, calls := s.calls.set r { t with completed := true } } ↔
        I s))
    (h : Runs v₀ es s) : (s.ctrl.isViewLoaded = true → I s) ↔
      ¬ AtLast machine.step IsSet C { ctrl := { viewController := v₀ } } es := by
  refine run_iff_atLast (I := fun s => s.ctrl.isViewLoaded = true → I s)
    (fun hl => absurd hl Bool.false_ne_true) ?_ ?_ h
  · intro es s e s' hrun he hstep
    cases step_moves hstep with
    | load _ => exact he.elim
    | completion r t ht hc => exact he.elim
    | set v a =>
      have hloaded := (set_viewController v a s.ctrl).2
      by_cases hl : s.ctrl.isViewLoaded = true
      · rw [← hset s v a (inv hrun) hl]
        exact ⟨fun hI => hI (hloaded.trans hl), fun hI _ => hI⟩
      · refine iff_of_true (fun hl' => ?_) fun hmet => hl (hC s _ hmet)
        exact absurd (hloaded.symm.trans hl') hl
  · intro es s e s' hrun he hstep
    cases step_moves hstep with
    | load hl =>
      refine iff_of_true (fun _ => hload s (inv hrun) hl) fun hl' => ?_
      rw [hl] at hl'
      cases hl'
    | completion r t ht hc => exact imp_congr_right fun _ => hcompletion s r t ht hc
    | set v a => exact absurd trivial he

theorem leaving_unloaded (h : Inv s) (hl : s.ctrl.isViewLoaded = false) (g : Controller) :
    leaving { s with ctrl := g } = [] := by
  simp [leaving, (h.unloaded hl).2.2.2]

theorem contained_iff (h : Runs v₀ es s) : (s.ctrl.isViewLoaded = true → Contained s) ↔
    ¬ AtLast machine.step IsSet Lost { ctrl := { viewController := v₀ } } es := by
  refine run_iff_atLast_set (fun s e hC => ?_) (fun s hinv hl => ?_) (fun s v a hinv hl => ?_)
    (fun s r t ht hc => contained_completion ht hc) h
  · rcases e with (_ | ⟨v, a⟩) | ⟨r, e⟩
    · exact hC.elim
    · exact hC.1
    · exact hC.elim
  · rw [viewDidLoad_eq hinv hl]
    exact ⟨List.mem_singleton_self _, by rw [leaving_unloaded hinv hl]; exact List.not_mem_nil⟩
  · rw [contained_set hinv hl]
    simp [Lost, hl]

theorem shown_iff (h : Runs v₀ es s) : (s.ctrl.isViewLoaded = true → Shown s) ↔
    ¬ AtLast machine.step IsSet Blank { ctrl := { viewController := v₀ } } es := by
  refine run_iff_atLast_set (fun s e hC => ?_) (fun s hinv hl => ?_) (fun s v a hinv hl => ?_)
    (fun s r t ht hc => shown_completion ht hc) h
  · rcases e with (_ | ⟨v, a⟩) | ⟨r, e⟩
    · exact hC.elim
    · exact hC.1
    · exact hC.elim
  · rw [viewDidLoad_eq hinv hl]
    refine ⟨List.mem_singleton_self _, by rw [leaving_unloaded hinv hl]; exact List.not_mem_nil, ?_⟩
    show _ ∉ s.ctrl.faded
    rw [(hinv.unloaded hl).2.2.1]
    exact List.not_mem_nil
  · rw [shown_set hinv hl]
    simp [Blank, hl]

/-! ### Transitions end -/

theorem ranked : machine.Ranked fun t => if t.completed then 0 else 1 := by
  intro t e t' oldVC hx
  cases e
  have hx : (if t.completed then none else some ({ t with completed := true }, t.old)) =
    some (t', oldVC) := hx
  by_cases hc : t.completed = true
  · rw [if_pos hc] at hx
    cases hx
  · rw [if_neg hc] at hx
    obtain ⟨rfl, rfl⟩ := Prod.mk.inj (Option.some.inj hx)
    simp [hc]

/-- At rest no animation is under way. -/
theorem leaving_of_atRest (h : machine.AtRest s) : leaving s = [] := by
  refine List.eq_nil_iff_forall_not_mem.mpr fun w hw => ?_
  obtain ⟨t, ht, hc, -⟩ := mem_leaving.mp hw
  have hnone : (if t.completed then none else some ({ t with completed := true }, t.old)) = none :=
    Machine.atRest_iff.mp h t ht .completion
  rw [hc] at hnone
  cases hnone

/-- **What a container comes to hold.** At any time its children and subviews
are the controller set last and those on their way out, and its animations can
all complete. With none under way that controller is the one child, unless it
was contained or on its way out when it was set last; else there is no child.
And its view, opaque, is the one subview just if it was then neither on its way
out, nor replaced with an animation by itself, nor faded out. -/
theorem shows_current (h : Runs v₀ es s) (hl : s.ctrl.isViewLoaded = true) :
    (∀ w ∈ s.ctrl.childViewControllers ++ s.ctrl.subviews,
      w = s.ctrl.viewController ∨ w ∈ leaving s) ∧
    (∃ es' u, CallsOnly es' ∧ run machine.step s es' = some u ∧ leaving u = []) ∧
    (leaving s = [] →
      (s.ctrl.childViewControllers = [s.ctrl.viewController] ∧
          ¬ AtLast machine.step IsSet Lost { ctrl := { viewController := v₀ } } es ∨
        s.ctrl.childViewControllers = [] ∧
          AtLast machine.step IsSet Lost { ctrl := { viewController := v₀ } } es) ∧
      (s.ctrl.subviews = [s.ctrl.viewController] ∧ s.ctrl.viewController ∉ s.ctrl.faded ↔
        ¬ AtLast machine.step IsSet Blank { ctrl := { viewController := v₀ } } es)) := by
  have hinv := inv h
  refine ⟨fun w hw => ?_, ?_, fun hrest => ⟨?_, ?_⟩⟩
  · rcases List.mem_append.mp hw with hchild | hview
    · exact hinv.children.2 w hchild
    · exact hinv.subviews.2 w hview
  · obtain ⟨es', u, hes, hrun, hrest⟩ := Machine.exists_rest ranked s
    exact ⟨es', u, hes, hrun, leaving_of_atRest hrest⟩
  · have heq := hinv.children.of_rest hrest
    have hiff := contained_iff h
    by_cases hv : s.ctrl.viewController ∈ s.ctrl.childViewControllers
    · rw [if_pos hv] at heq
      exact Or.inl ⟨heq, hiff.mp fun _ => ⟨hv, by simp [hrest]⟩⟩
    · rw [if_neg hv] at heq
      refine Or.inr ⟨heq, ?_⟩
      by_contra hlast
      exact hv (hiff.mpr hlast hl).1
  · have heq := hinv.subviews.of_rest hrest
    rw [← shown_iff h]
    constructor
    · rintro ⟨hview, hfaded⟩ -
      exact ⟨by simp [hview], by simp [hrest], hfaded⟩
    · intro hshown
      obtain ⟨hmem, -, hfaded⟩ := hshown hl
      rw [if_pos hmem] at heq
      exact ⟨heq, hfaded⟩

/-- The splash, the list, and the splash again before the first animation has ended. -/
def setBack : List (Event UIEvent TransitionEvent) :=
  [.ui .viewDidLoad, .ui (.set 1 .crossDisolve), .ui (.set 0 .newModalBottom), .call 1 .completion,
    .call 0 .completion]

theorem shows_current_back : ∃ s, Runs 0 setBack s ∧ s.ctrl.viewController = 0 ∧
    s.ctrl.childViewControllers = [] ∧
    AtLast machine.step IsSet Lost { ctrl := { viewController := 0 } } setBack := by
  refine ⟨_, rfl, rfl, rfl, ?_⟩
  rcases ((@shows_current 0 setBack _ rfl rfl).2.2 rfl).1 with ⟨hchild, -⟩ | ⟨-, hlast⟩
  · cases hchild
  · exact hlast

/-! ### The launch -/

/-- The user's events of a run, in their order. -/
def uiEvents (es : List (Event UIEvent TransitionEvent)) : List UIEvent :=
  es.filterMap fun
    | .ui u => some u
    | _ => none

/-- `didFinishLaunchingWithOptions`, of a container made for the splash screen:
the window loads its view, and two seconds later `mainVC` is set. -/
def didFinishLaunching (mainVC : ViewController) : List UIEvent :=
  [.viewDidLoad, .set mainVC .crossDisolve]

/-- Only `set` changes which controller is contained. -/
theorem viewController_eq (h : run machine.step s es = some s') :
    (∀ e ∈ es, ¬ IsSet e) → s'.ctrl.viewController = s.ctrl.viewController := by
  refine run_history (P := fun es (u : State) => (∀ e ∈ es, ¬ IsSet e) →
    u.ctrl.viewController = s.ctrl.viewController) (fun _ => rfl) ?_ h
  intro es t e u _ ih hstep hno
  have ht := ih fun e he => hno e (List.mem_append_left _ he)
  cases step_moves hstep with
  | load hl =>
    rw [← ht]
    unfold viewDidLoad
    dsimp only
    split <;> rfl
  | set v a => exact absurd trivial (hno _ (List.mem_append_right _ List.mem_cons_self))
  | completion r t _ _ => exact ht

/-- Until a controller is set there is no animation. -/
theorem eq_of_no_set (h : Runs v₀ es s) : (∀ e ∈ es, ¬ IsSet e) →
    s.ctrl.faded = [] ∧ s.calls = [] := by
  refine run_history (P := fun es (s : State) => (∀ e ∈ es, ¬ IsSet e) →
    s.ctrl.faded = [] ∧ s.calls = []) (fun _ => ⟨rfl, rfl⟩) ?_ h
  intro es s e s' hrun ih hstep hno
  obtain ⟨hfaded, hcalls⟩ := ih fun e he => hno e (List.mem_append_left _ he)
  cases step_moves hstep with
  | load hl =>
    rw [viewDidLoad_eq (inv hrun) hl]
    exact ⟨hfaded, hcalls⟩
  | set v a => exact absurd trivial (hno _ (List.mem_append_right _ List.mem_cons_self))
  | completion r t ht _ =>
    rw [hcalls] at ht
    cases ht

theorem loaded_of_mem (h : Runs v₀ es s) : .ui .viewDidLoad ∈ es → s.ctrl.isViewLoaded = true := by
  refine run_history (P := fun es (s : State) => .ui .viewDidLoad ∈ es → s.ctrl.isViewLoaded = true)
    nofun ?_ h
  intro es s e s' hrun ih hstep hmem
  have hold : e ≠ .ui .viewDidLoad → s.ctrl.isViewLoaded = true := by
    intro hne
    rcases List.mem_append.mp hmem with hmem | hlast
    · exact ih hmem
    · exact absurd (List.mem_singleton.mp hlast).symm hne
  cases step_moves hstep with
  | load hl => rw [viewDidLoad_eq (inv hrun) hl]
  | set v a => exact (set_viewController v a s.ctrl).2.trans (hold nofun)
  | completion r t _ _ => exact hold nofun

theorem isSet_iff {e : Event UIEvent TransitionEvent} : IsSet e ↔ ∃ v a, e = .ui (.set v a) := by
  rcases e with (_ | ⟨v, a⟩) | ⟨r, e⟩ <;> simp [IsSet]

/-- A launch is, but for animations that end, the view that loads and then `mainVC` that is set. -/
theorem launch_split {mainVC : ViewController} (hui : uiEvents es = didFinishLaunching mainVC)
    {pre post : List (Event UIEvent TransitionEvent)} (hes : es = pre ++ e :: post) (he : IsSet e) :
    e = .ui (.set mainVC .crossDisolve) ∧ (∀ e' ∈ pre, ¬ IsSet e') ∧ ∀ e' ∈ post, ¬ IsSet e' := by
  obtain ⟨v, a, rfl⟩ := isSet_iff.mp he
  have hsplit : uiEvents pre ++ .set v a :: uiEvents post = [.viewDidLoad, .set mainVC .crossDisolve] := by
    simpa [hes, uiEvents, didFinishLaunching] using hui
  have hparts : uiEvents pre = [.viewDidLoad] ∧ uiEvents post = [] ∧ v = mainVC ∧ a = .crossDisolve := by
    rcases hpre : uiEvents pre with _ | ⟨u, _ | ⟨u', us⟩⟩ <;> rw [hpre] at hsplit <;> simp_all
  obtain ⟨hpre, hpost, rfl, rfl⟩ := hparts
  have hmem : ∀ {es' : List (Event UIEvent TransitionEvent)} {v a}, .ui (.set v a) ∈ es' →
      .set v a ∈ uiEvents es' := fun h => List.mem_filterMap.mpr ⟨_, h, rfl⟩
  refine ⟨rfl, fun e' he' hset => ?_, fun e' he' hset => ?_⟩
  · obtain ⟨v, a, rfl⟩ := isSet_iff.mp hset
    have hset := hmem he'
    rw [hpre] at hset
    simp at hset
  · obtain ⟨v, a, rfl⟩ := isSet_iff.mp hset
    have hset := hmem he'
    rw [hpost] at hset
    simp at hset

/-- Once the launch is over the window shows the controller that was set, and no other. -/
theorem launch_shows {splash mainVC : ViewController} (hne : mainVC ≠ splash) (h : Runs splash es s)
    (hui : uiEvents es = didFinishLaunching mainVC) (hrest : leaving s = []) :
    s.ctrl.childViewControllers = [mainVC] ∧ s.ctrl.subviews = [mainVC] ∧ mainVC ∉ s.ctrl.faded := by
  have hmem : ∀ u ∈ didFinishLaunching mainVC, .ui u ∈ es := by
    intro u hu
    rw [← hui] at hu
    obtain ⟨e, he, heq⟩ := List.mem_filterMap.mp hu
    rcases e with u' | ⟨r, e⟩
    · rwa [← Option.some.inj heq]
    · cases heq
  have hl := loaded_of_mem h (hmem .viewDidLoad (by simp [didFinishLaunching]))
  obtain ⟨pre, post, hes⟩ := List.append_of_mem (hmem (.set mainVC .crossDisolve) (by simp [didFinishLaunching]))
  -- the controller set last is the one that was set in the launch
  have hcur : s.ctrl.viewController = mainVC := by
    obtain ⟨-, -, hpost⟩ := launch_split hui hes trivial
    rw [hes] at h
    obtain ⟨t, -, hrest⟩ := run_append_iff.mp h
    obtain ⟨u, hu, hrest⟩ := Option.bind_eq_some_iff.mp hrest
    rw [viewController_eq hrest hpost]
    cases step_moves hu with
    | set v a => exact (set_viewController mainVC .crossDisolve t.ctrl).1
  -- and the container held the splash screen, with no animation, when it was
  have hbefore : ∀ pre e post t, es = pre ++ e :: post → IsSet e →
      run machine.step { ctrl := { viewController := splash } } pre = some t →
      e = .ui (.set mainVC .crossDisolve) ∧ t.ctrl.viewController = splash ∧ t.ctrl.faded = [] ∧
        leaving t = [] := by
    intro pre e post t hes he ht
    obtain ⟨rfl, hpre, -⟩ := launch_split hui hes he
    obtain ⟨hfaded, hcalls⟩ := eq_of_no_set ht hpre
    exact ⟨rfl, viewController_eq ht hpre, hfaded, by simp [leaving, hcalls]⟩
  have hcontained := (contained_iff h).mpr (by
    rintro ⟨pre, e, post, t, hes, he, -, ht, hC⟩
    obtain ⟨rfl, hv, -, hleaving⟩ := hbefore pre e post t hes he ht
    simp [Lost, hv, hleaving, hne] at hC) hl
  have hshown := (shown_iff h).mpr (by
    rintro ⟨pre, e, post, t, hes, he, -, ht, hC⟩
    obtain ⟨rfl, hv, hfaded, hleaving⟩ := hbefore pre e post t hes he ht
    simp [Blank, hv, hfaded, hleaving, hne] at hC) hl
  have hchildren := (inv h).children.of_rest hrest
  have hsubviews := (inv h).subviews.of_rest hrest
  rw [if_pos hcontained.1, hcur] at hchildren
  rw [if_pos hshown.1, hcur] at hsubviews
  exact ⟨hchildren, hsubviews, hcur ▸ hshown.2.2⟩

end ContainerViewController
end Workshop2018
