import NixKernel.Value

/-!
Cells of one sort. A cell keeps its address for good; a new one takes the next free address.
-/

namespace NixKernel

variable {σ : CellSort} {α : Type}

/-- The cells of one sort, by address. -/
structure Heap (σ : CellSort) (α : Type) where
  cells : Array α

namespace Heap

def empty : Heap σ α := ⟨#[]⟩

/-- The content of a cell. -/
def get? (h : Heap σ α) (a : Addr σ) : Option α := h.cells[a.index]?

/-- The address of the next new cell. -/
def next (h : Heap σ α) : Addr σ := ⟨h.cells.size⟩

/-- Adds a cell. -/
def push (h : Heap σ α) (x : α) : Heap σ α := ⟨h.cells.push x⟩

/-- Replaces the content of a cell. -/
def modify (h : Heap σ α) (a : Addr σ) (f : α → α) : Heap σ α := ⟨h.cells.modify a.index f⟩

theorem next_push (h : Heap σ α) (x : α) : (h.push x).next = ⟨h.next.index + 1⟩ := by
  simp [push, next]

theorem next_modify (h : Heap σ α) (a : Addr σ) (f : α → α) : (h.modify a f).next = h.next := by
  simp [modify, next]

theorem get?_push (h : Heap σ α) (x : α) (a : Addr σ) :
    (h.push x).get? a = if a = h.next then some x else h.get? a := by
  obtain ⟨i⟩ := a
  simp [push, get?, next, Array.getElem?_push]

theorem get?_push_next (h : Heap σ α) (x : α) : (h.push x).get? h.next = some x := by
  simp [get?_push]

theorem get?_modify (h : Heap σ α) (a b : Addr σ) (f : α → α) :
    (h.modify a f).get? b = if a = b then (h.get? b).map f else h.get? b := by
  obtain ⟨i⟩ := a
  obtain ⟨j⟩ := b
  simp [modify, get?, Array.getElem?_modify]

/-- The cells that exist are those below the next address. -/
theorem get?_isSome (h : Heap σ α) (a : Addr σ) :
    (h.get? a).isSome ↔ a.index < h.next.index := by
  simp [get?, next]

end Heap

end NixKernel
