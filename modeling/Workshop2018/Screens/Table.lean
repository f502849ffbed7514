/-
# What the two screens share: cells, and what a table view holds

A table view asks its data source for the number of sections and of the rows
in each when it reloads, and holds the answer until it reloads again; between
reloads it asks for cells, and reports taps, at the index paths of the layout
it holds. `Table` is that layout, with the data it was obtained from.

An out-of-range subscript and the use of a nil `Item!` stop the program; a
function that can do either returns the `Trap`.

Key definitions: `Table`, `IndexPath`, `ItemCell`, `ItemCell.Shows`, `Trap`.
-/
import Workshop2018.Model.Item

namespace Workshop2018

/-- What stops the program. -/
inductive Trap
  | indexOutOfRange
  | unwrappedNil
  deriving DecidableEq, Repr

/-- `xs[i]`. -/
def subscript {α : Type} (xs : List α) (i : ℕ) : Except Trap α :=
  match xs[i]? with
  | some x => .ok x
  | none => .error .indexOutOfRange

theorem subscript_eq_ok {α : Type} {xs : List α} {i : ℕ} {x : α} (h : xs[i]? = some x) :
    subscript xs i = .ok x := by
  simp [subscript, h]

structure IndexPath where
  «section» : ℕ
  row : ℕ
  deriving DecidableEq, Repr

/-- The layout a table view holds: the number of rows of each section. The
second field is history: the data the controller had when it was obtained. -/
structure Table where
  rows : List ℕ
  shown : List Item
  deriving DecidableEq, Repr

namespace Table

/-- `reloadData`: ask the data source for its sections and their rows. -/
def reloadData (numberOfSections : ℕ) (numberOfRowsInSection : ℕ → ℕ) (shown : List Item) : Table where
  rows := (List.range numberOfSections).map numberOfRowsInSection
  shown := shown

/-- The index paths of the layout. -/
def Has (t : Table) (ip : IndexPath) : Prop := ∃ n, t.rows[ip.section]? = some n ∧ ip.row < n

instance (t : Table) (ip : IndexPath) : Decidable (t.Has ip) :=
  inferInstanceAs (Decidable (∃ n ∈ t.rows[ip.section]?, ip.row < n))

theorem reloadData_has {sections : ℕ} {rows : ℕ → ℕ} {shown : List Item} {ip : IndexPath} :
    (reloadData sections rows shown).Has ip ↔ ip.section < sections ∧ ip.row < rows ip.section := by
  simp only [Has, reloadData, List.getElem?_map, Option.map_eq_some_iff]
  constructor
  · rintro ⟨n, ⟨i, hi, rfl⟩, hlt⟩
    obtain ⟨hs, he⟩ := List.getElem?_eq_some_iff.mp hi
    rw [List.getElem_range] at he
    subst he
    exact ⟨by simpa using hs, hlt⟩
  · rintro ⟨hs, hlt⟩
    exact ⟨_, ⟨ip.section, by simp [hs], rfl⟩, hlt⟩

end Table

/-- The labels of a cell. -/
structure ItemCell (F : Foundation) where
  titleLabel : Option String
  byLabel : Option String
  contentLabel : Option F.AttributedString

/-- The labels both screens set for an item. -/
def ItemCell.of (F : Foundation) (item : Item) : ItemCell F where
  titleLabel := item.title
  byLabel := some ("by @" ++ item.by.getD "unknown")
  contentLabel := item.attributtedText F

/-- The cell shows the item: its title, whom it is by, and its text as an HTML
document, where it has a text that Foundation can read as one. -/
structure ItemCell.Shows {F : Foundation} (cell : ItemCell F) (item : Item) : Prop where
  title : cell.titleLabel = item.title
  author : ∀ name, item.by = some name → cell.byLabel = some ("by @" ++ name)
  unknown : item.by = none → cell.byLabel = some "by @unknown"
  content : ∀ html, cell.contentLabel = some html ↔
    ∃ text data, item.text = some text ∧ F.utf16 text = some data ∧ F.html data = some html

theorem ItemCell.of_shows (F : Foundation) (item : Item) : (ItemCell.of F item).Shows item := by
  refine ⟨rfl, fun name hname => ?_, fun hnone => ?_, fun html => ?_⟩
  · simp [ItemCell.of, hname]
  · rw [ItemCell.of, hnone]
    rfl
  · simp only [ItemCell.of, Item.attributtedText, Option.bind_eq_bind, Option.bind_eq_some_iff]
    constructor
    · rintro ⟨text, htext, data, hdata, hhtml⟩
      exact ⟨text, data, htext, hdata, hhtml⟩
    · rintro ⟨text, data, htext, hdata, hhtml⟩
      exact ⟨text, htext, data, hdata, hhtml⟩

end Workshop2018
