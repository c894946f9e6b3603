namespace AdaptiveRadix

/-!
# Size classes and node families

Nodes come in six capacities.  A node starts in the smallest class, moves to the
next one when it is full and an entry has to be added, and never moves back.  Its
family says what its entries are: inner nodes hold children, leaves hold values.
-/

/-- The capacity classes of nodes, in ascending order. -/
inductive SizeClass where
  | c1
  | c4
  | c16
  | c32
  | c128
  | c256
deriving DecidableEq, Repr

namespace SizeClass

/-- Every class, smallest first. -/
def all : List SizeClass :=
  [c1, c4, c16, c32, c128, c256]

/-- The most entries a node of the class holds. -/
def capacity : SizeClass -> Nat
  | c1 => 1
  | c4 => 4
  | c16 => 16
  | c32 => 32
  | c128 => 128
  | c256 => 256

/-- The class that a full node moves to.  The largest class has an entry for
each chunk, so it never has to grow. -/
def next? : SizeClass -> Option SizeClass
  | c1 => some c4
  | c4 => some c16
  | c16 => some c32
  | c32 => some c128
  | c128 => some c256
  | c256 => none

/-- Position of the class in ascending order. -/
def index : SizeClass -> Fin 6
  | c1 => 0
  | c4 => 1
  | c16 => 2
  | c32 => 3
  | c128 => 4
  | c256 => 5

/-- The short name of the class. -/
def label (sizeClass : SizeClass) : String :=
  s!"K{sizeClass.capacity}"

/-- The sum of a measure over all classes. -/
def total (measure : SizeClass -> Nat) : Nat :=
  all.foldr (fun sizeClass sum => measure sizeClass + sum) 0

theorem capacity_lt_of_next? {sizeClass larger : SizeClass} (grows : sizeClass.next? = some larger) :
    sizeClass.capacity < larger.capacity := by
  cases sizeClass <;> cases grows <;> decide

theorem next?_eq_none_iff (sizeClass : SizeClass) : sizeClass.next? = none ↔ sizeClass = c256 := by
  cases sizeClass <;> decide

end SizeClass

/-- What the entries of a node are. -/
inductive Family where
  | inner
  | leaf
deriving DecidableEq, Repr

namespace Family

/-- Leaves are exactly the nodes at level 0. -/
def ofLevel : Nat -> Family
  | 0 => leaf
  | _ + 1 => inner

/-- The name of the family in texts and events. -/
def label : Family -> String
  | inner => "inner"
  | leaf => "leaf"

end Family

end AdaptiveRadix
