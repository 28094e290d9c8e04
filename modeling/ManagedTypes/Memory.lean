import ManagedTypes.Payload.Basic

/-! Memory: blocks of word cells. An array is a block that its handles share, a box of its own
payload is a block of one cell, and a view of an array is a cell of the array's block. -/
namespace ManagedTypes

structure Cell where
  block : Nat
  index : Nat
  deriving DecidableEq, Repr

structure Memory where
  blocks : List (List Word)
  deriving DecidableEq

namespace Memory

def empty : Memory := ⟨[]⟩

def blockAt (m : Memory) (block : Nat) : List Word := m.blocks.getD block []

def read (m : Memory) (c : Cell) : Word := (m.blockAt c.block).getD c.index 0

def write (m : Memory) (c : Cell) (w : Word) : Memory :=
  ⟨m.blocks.modify c.block (·.set c.index w)⟩

/-- The memory with one more block. Its number is the number of blocks before. -/
def allocate (m : Memory) (cells : List Word) : Memory := ⟨m.blocks ++ [cells]⟩

def next (m : Memory) : Nat := m.blocks.length

/-- The cell exists. -/
def Has (m : Memory) (c : Cell) : Prop := c.index < (m.blockAt c.block).length

theorem blockAt_write (m : Memory) (c : Cell) (w : Word) (block : Nat) :
    (m.write c w).blockAt block =
      if c.block = block then (m.blockAt block).set c.index w else m.blockAt block := by
  simp only [blockAt, write, List.getD_eq_getElem?_getD, List.getElem?_modify]
  by_cases h : c.block = block
  · subst h
    cases m.blocks[c.block]? <;> simp
  · cases m.blocks[block]? <;> simp [h]

theorem length_blockAt_write (m : Memory) (c : Cell) (w : Word) (block : Nat) :
    ((m.write c w).blockAt block).length = (m.blockAt block).length := by
  rw [blockAt_write]; split <;> simp

theorem read_mem {m : Memory} {c : Cell} (h : m.Has c) : m.read c ∈ m.blockAt c.block := by
  rw [read, List.getD_eq_getElem?_getD, List.getElem?_eq_getElem h, Option.getD_some]
  exact List.getElem_mem h

theorem read_write_self {m : Memory} {c : Cell} (h : m.Has c) (w : Word) :
    (m.write c w).read c = w := by
  simp only [Has] at h
  simp [read, blockAt_write, List.getElem?_set_self h]

theorem read_write_of_ne (m : Memory) {c d : Cell} (h : c ≠ d) (w : Word) :
    (m.write c w).read d = m.read d := by
  simp only [read, blockAt_write]
  by_cases hb : c.block = d.block
  · have hi : c.index ≠ d.index := fun hi => h (by cases c; cases d; simp_all)
    simp [hb, List.getElem?_set_ne hi]
  · simp [hb]

/-- Of two writes to a cell the second remains. -/
theorem write_write (m : Memory) (c : Cell) (v w : Word) : (m.write c v).write c w = m.write c w := by
  simp only [write, List.modify_modify_eq]
  congr 2
  funext cells
  exact List.set_set ..

/-- Writing what is there changes nothing. -/
theorem write_read_self (m : Memory) (c : Cell) : m.write c (m.read c) = m := by
  have hset (cells : List Word) : cells.set c.index (cells.getD c.index 0) = cells := by
    by_cases h : c.index < cells.length
    · rw [List.getD_eq_getElem?_getD, List.getElem?_eq_getElem h, Option.getD_some,
        List.set_getElem_self]
    · exact List.set_eq_of_length_le (by omega)
  refine congrArg Memory.mk (List.ext_getElem? fun i => ?_)
  rw [List.getElem?_modify]
  split
  next h =>
    subst h
    rw [read, blockAt, List.getD_eq_getElem?_getD (l := m.blocks)]
    cases m.blocks[c.block]? with
    | none => rfl
    | some cells => exact congrArg some (hset cells)
  · simp

theorem blockAt_allocate (m : Memory) (cells : List Word) (block : Nat) :
    (m.allocate cells).blockAt block =
      if block = m.next then cells else m.blockAt block := by
  simp only [blockAt, allocate, next, List.getD_eq_getElem?_getD]
  by_cases h : block = m.blocks.length
  · simp [h]
  · rw [if_neg h]
    rcases Nat.lt_or_gt_of_ne h with hlt | hgt
    · rw [List.getElem?_append_left hlt]
    · rw [List.getElem?_eq_none (by simp; omega), List.getElem?_eq_none (by omega)]

end Memory

end ManagedTypes
