/-
# The two requests, and what their response handlers do

`askstoriesItemsIds` and `itemById` send a request and hand the response's
result to one of two closures. Alamofire runs the handler on the main queue
once; which closure runs depends on the result alone: `itemIdsOf` and `itemOf`
say what the success closure is given, `none` where the failure closure runs.

Key definitions: `Network.askstoriesItemsIds`, `Network.itemById`,
`Network.itemIdsOf`, `Network.itemOf`, `Fetch`.
Key theorems: `Network.itemById_eq`, `Network.itemOf_itemResult`, `Fetch.response_eq_some`.
-/
import Workshop2018.Lib.FanIn
import Workshop2018.Model.Item

namespace Workshop2018

open Concurrent

/-- Alamofire's `Result`. -/
inductive Result (α : Type)
  | success (value : α)
  | failure (error : SwiftError)

namespace Network

/-- A request, by its path under the base URL. -/
structure Request where
  path : String
  deriving DecidableEq, Repr

def itemRequest (id : ℤ) : Request := { path := "item/" ++ toString id ++ ".json" }

/-- The response handler of `askstoriesItemsIds`. -/
def askstoriesItemsIds {σ : Type} (success : List ℤ → σ) (failure : SwiftError → σ) :
    Result Json → σ
  | .failure error => failure error
  | .success data =>
    match data.asArrayInt with
    | some data => success data
    | none => failure (.notValid "List of item ids is not correctly formatted")

/-- The response handler of `itemById`. -/
def itemById {σ : Type} (F : Foundation) (success : Item → σ) (failure : SwiftError → σ) :
    Result Json → σ
  | .failure error => failure error
  | .success data =>
    match data.asDictionary with
    | some json =>
      match Item.decode F json with
      | .ok item => success item
      | .error _ => failure (.notValid "Item is not correctly formatted")
    | none => failure (.notValid "Item is not correctly formatted")

/-- The ids of a result that is a list of `Int`. -/
def itemIdsOf : Result Json → Option (List ℤ)
  | .failure _ => none
  | .success data => data.asArrayInt

/-- The error that the failure closure for the ids is given. -/
def idsError : Result Json → Option SwiftError
  | .failure error => some error
  | .success data =>
    match data.asArrayInt with
    | some _ => none
    | none => some (.notValid "List of item ids is not correctly formatted")

/-- The item of a result that is an object and decodes. -/
def itemOf (F : Foundation) : Result Json → Option Item
  | .failure _ => none
  | .success data => data.asDictionary.bind fun json => (Item.decode F json).toOption

variable {σ : Type} {F : Foundation}

/-- The failure closure runs on each of its two paths, the success closure on the third. -/
theorem askstoriesItemsIds_eq (success : List ℤ → σ) (failure : SwiftError → σ) (result : Result Json) :
    (∃ ids, itemIdsOf result = some ids ∧ askstoriesItemsIds success failure result = success ids) ∨
    (itemIdsOf result = none ∧ ∃ error, askstoriesItemsIds success failure result = failure error) := by
  cases result with
  | failure error => exact Or.inr ⟨rfl, error, rfl⟩
  | success data =>
    cases h : data.asArrayInt with
    | some ids => exact Or.inl ⟨ids, h, by simp [askstoriesItemsIds, h]⟩
    | none =>
      exact Or.inr ⟨h, .notValid "List of item ids is not correctly formatted",
        by simp only [askstoriesItemsIds, h]⟩

/-- The failure closure runs just for the results that have an error, and is given it. -/
theorem askstoriesItemsIds_of_error (success : List ℤ → σ) (failure : SwiftError → σ)
    (result : Result Json) :
    (∃ ids, idsError result = none ∧ askstoriesItemsIds success failure result = success ids) ∨
    ∃ error, idsError result = some error ∧
      askstoriesItemsIds success failure result = failure error := by
  cases result with
  | failure error => exact Or.inr ⟨error, rfl, rfl⟩
  | success data =>
    cases h : data.asArrayInt with
    | some ids => exact Or.inl ⟨ids, by simp [idsError, h], by simp [askstoriesItemsIds, h]⟩
    | none =>
      refine Or.inr ⟨.notValid "List of item ids is not correctly formatted", ?_, ?_⟩
      · simp only [idsError, h]
      · simp only [askstoriesItemsIds, h]

/-- One of the two closures runs, once: on success with the item, on each of
the three failing paths with an error. -/
theorem itemById_eq (success : Item → σ) (failure : SwiftError → σ) (result : Result Json) :
    (∃ item, itemOf F result = some item ∧ itemById F success failure result = success item) ∨
    (itemOf F result = none ∧ ∃ error, itemById F success failure result = failure error) := by
  cases result with
  | failure error => exact Or.inr ⟨rfl, error, rfl⟩
  | success data =>
    cases h : data.asDictionary with
    | none =>
      exact Or.inr ⟨by simp [itemOf, h], .notValid "Item is not correctly formatted",
        by simp only [itemById, h]⟩
    | some json =>
      cases hd : Item.decode F json with
      | ok item =>
        exact Or.inl ⟨item, by simp [itemOf, h, hd, Except.toOption], by simp only [itemById, h, hd]⟩
      | error e =>
        exact Or.inr ⟨by simp [itemOf, h, hd, Except.toOption],
          .notValid "Item is not correctly formatted", by simp only [itemById, h, hd]⟩

/-- The response that brings an item. -/
def itemResult (item : Item) : Result Json := .success (.object item.encode)

/-- The response that brings a list of ids. -/
def idsResult (ids : List ℤ) : Result Json := .success (Item.encodeArrayInt ids)

/-- Every item the program can hold comes from some response. -/
theorem itemOf_itemResult {item : Item} (h : item.Valid F) : itemOf F (itemResult item) = some item := by
  show (Item.decode F item.encode).toOption = some item
  rw [Item.decode_encode F h]
  rfl

/-- Every list of `Int`s comes from some response. -/
theorem itemIdsOf_idsResult {ids : List ℤ} (h : ∀ i ∈ ids, Item.FitsInt i) :
    itemIdsOf (idsResult ids) = some ids := by
  show (ids.map Item.encodeInt).mapM Json.asInt = some ids
  induction ids with
  | nil => rfl
  | cons i ids ih =>
    have hi : Json.asInt (Item.encodeInt i) = some i := Item.exactInt_intCast (h i List.mem_cons_self)
    rw [List.map_cons, List.mapM_cons, hi, ih fun j hj => h j (List.mem_cons_of_mem _ hj)]
    rfl

end Network

/-- The item requests of one load, with the group they are fanned in with, the
`array` their items are appended to, and the blocks (`β`) for the main queue. -/
abbrev Fetch (β : Type) := FanIn β Network.Request Item

namespace Fetch

variable {β : Type} {F : Foundation}

/-- The success closure of the request at position `k`. -/
def success (f : Fetch β) (k : ℕ) (item : Item) : Fetch β :=
  ((f.respond k (some item)).append item).leave

/-- The failure closure of the request at position `k`: nothing to do but leave the group. -/
def failure (f : Fetch β) (k : ℕ) (_error : SwiftError) : Fetch β := (f.respond k none).leave

/-- The response handler of the request at position `k`, if it is outstanding. -/
def response (F : Foundation) (f : Fetch β) (k : ℕ) (result : Result Json) : Option (Fetch β) :=
  if k ∈ f.requests then some (Network.itemById F (success f k) (failure f k) result) else none

/-- A response settles its position with its item, or without one. -/
theorem response_eq_some {f f' : Fetch β} {k : ℕ} {result : Result Json} :
    response F f k result = some f' ↔
      k ∈ f.requests ∧ f' = f.settle k (Network.itemOf F result) := by
  have heq : Network.itemById F (success f k) (failure f k) result =
      f.settle k (Network.itemOf F result) := by
    rcases Network.itemById_eq (F := F) (success f k) (failure f k) result with
      ⟨item, hi, he⟩ | ⟨hi, error, he⟩
    · rw [he, hi]; rfl
    · rw [he, hi]; rfl
  unfold response
  split
  · rename_i hk
    simp only [heq, Option.some.injEq, hk, true_and, eq_comm]
  · rename_i hk
    simp [hk]

end Fetch

end Workshop2018
