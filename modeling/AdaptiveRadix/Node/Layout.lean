import AdaptiveRadix.Node.Direct
import AdaptiveRadix.Node.Indexed
import AdaptiveRadix.Node.SortedRun
import AdaptiveRadix.SizeClass

namespace AdaptiveRadix

/-!
# Layouts by size class

How a node of each class arranges its entries: the four smaller classes as sorted
runs of their capacity, the class of 128 as an indexed table, the class of 256 as a
direct one.  The count of the node is passed in; only sorted runs consult it.
-/

/-- The widths in use for sorted runs. -/
inductive RunWidth where
  | one
  | four
  | sixteen
  | thirtyTwo
deriving DecidableEq, Repr

namespace RunWidth

def places : RunWidth -> Nat
  | one => 1
  | four => 4
  | sixteen => 16
  | thirtyTwo => 32

def sizeClass : RunWidth -> SizeClass
  | one => .c1
  | four => .c4
  | sixteen => .c16
  | thirtyTwo => .c32

/-- A run fills its class: it has a place for every entry the class admits. -/
theorem capacity_sizeClass (width : RunWidth) : width.sizeClass.capacity = width.places := by
  cases width <;> rfl

end RunWidth

/-- The arrangement of the entries of one node. -/
inductive Layout (α : Type) where
  | sorted (width : RunWidth) (run : SortedRun α width.places)
  | indexed (table : Indexed α)
  | direct (table : Direct α)

namespace Layout

variable {α : Type}

/-- The layout of a class, without entries. -/
def vacant [Inhabited α] : SizeClass -> Layout α
  | .c1 => sorted .one SortedRun.vacant
  | .c4 => sorted .four SortedRun.vacant
  | .c16 => sorted .sixteen SortedRun.vacant
  | .c32 => sorted .thirtyTwo SortedRun.vacant
  | .c128 => indexed Indexed.vacant
  | .c256 => direct Direct.vacant

def sizeClass : Layout α -> SizeClass
  | sorted width _ => width.sizeClass
  | indexed _ => .c128
  | direct _ => .c256

def get? (layout : Layout α) (count : Nat) (chunk : Chunk) : Option α :=
  match layout with
  | sorted _ run => run.get? count chunk
  | indexed table => table.get? chunk
  | direct table => table.get? chunk

def insert (layout : Layout α) (count : Nat) (chunk : Chunk) (value : α) : Layout α :=
  match layout with
  | sorted width run => sorted width (run.insert count chunk value)
  | indexed table => indexed (table.insert chunk value)
  | direct table => direct (table.insert chunk value)

def replace (layout : Layout α) (count : Nat) (chunk : Chunk) (value : α) : Layout α :=
  match layout with
  | sorted width run => sorted width (run.replace count chunk value)
  | indexed table => indexed (table.replace chunk value)
  | direct table => direct (table.replace chunk value)

def erase (layout : Layout α) (count : Nat) (chunk : Chunk) : Layout α :=
  match layout with
  | sorted width run => sorted width (run.erase count chunk)
  | indexed table => indexed (table.erase chunk)
  | direct table => direct (table.erase chunk)

/-- The entries in ascending chunk order. -/
def entries (layout : Layout α) (count : Nat) : List (Entry α) :=
  match layout with
  | sorted _ run => run.entries count
  | indexed table => table.entries
  | direct table => table.entries

theorem sizeClass_vacant [Inhabited α] (sizeClass : SizeClass) :
    (vacant sizeClass : Layout α).sizeClass = sizeClass := by
  cases sizeClass <;> rfl

theorem sizeClass_insert (layout : Layout α) (count : Nat) (chunk : Chunk) (value : α) :
    (layout.insert count chunk value).sizeClass = layout.sizeClass := by
  cases layout <;> rfl

theorem sizeClass_replace (layout : Layout α) (count : Nat) (chunk : Chunk) (value : α) :
    (layout.replace count chunk value).sizeClass = layout.sizeClass := by
  cases layout <;> rfl

theorem sizeClass_erase (layout : Layout α) (count : Nat) (chunk : Chunk) :
    (layout.erase count chunk).sizeClass = layout.sizeClass := by
  cases layout <;> rfl

end Layout
end AdaptiveRadix
