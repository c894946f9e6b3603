import AdaptiveRadix.Node.Layout

namespace AdaptiveRadix

/-!
# Nodes

A node is a map from chunks to values of one kind: subtrees for an inner node, words
for a leaf.  It knows the pool slot that it occupies, how many entries it has, and
how its size class arranges them.

A node never grows by itself.  `Node.insert` wants a chunk without an entry and a
node that is not full; who adds to a full node moves its entries to the next class
first, by `Node.moved`.
-/

/-- A pool slot, a count of entries, and their arrangement. -/
@[ext]
structure Node (α : Type) where
  slot : Nat
  count : Nat
  layout : Layout α

namespace Node

variable {α : Type}

/-- A node without entries. -/
def vacant [Inhabited α] (sizeClass : SizeClass) (slot : Nat) : Node α :=
  ⟨slot, 0, Layout.vacant sizeClass⟩

instance [Inhabited α] : Inhabited (Node α) :=
  ⟨vacant .c1 0⟩

def sizeClass (node : Node α) : SizeClass :=
  node.layout.sizeClass

def isFull (node : Node α) : Bool :=
  node.count == node.sizeClass.capacity

def isEmpty (node : Node α) : Bool :=
  node.count == 0

/-- What the entry of a chunk holds. -/
def get? (node : Node α) (chunk : Chunk) : Option α :=
  node.layout.get? node.count chunk

/-- Add an entry for a chunk that has none. -/
def insert (node : Node α) (chunk : Chunk) (value : α) : Node α :=
  { node with count := node.count + 1, layout := node.layout.insert node.count chunk value }

/-- Give the entry of a chunk another value.  Nothing else changes. -/
def replace (node : Node α) (chunk : Chunk) (value : α) : Node α :=
  { node with layout := node.layout.replace node.count chunk value }

/-- Take out the entry of a chunk that has one. -/
def erase (node : Node α) (chunk : Chunk) : Node α :=
  { node with count := node.count - 1, layout := node.layout.erase node.count chunk }

/-- The entries in ascending chunk order. -/
def entries (node : Node α) : List (Entry α) :=
  node.layout.entries node.count

/-- The same entries in a node of another class and slot. -/
def moved [Inhabited α] (node : Node α) (sizeClass : SizeClass) (slot : Nat) : Node α :=
  node.entries.foldl (fun target entry => target.insert entry.chunk entry.value)
    (vacant sizeClass slot)

theorem sizeClass_vacant [Inhabited α] (sizeClass : SizeClass) (slot : Nat) :
    (vacant sizeClass slot : Node α).sizeClass = sizeClass :=
  Layout.sizeClass_vacant sizeClass

theorem sizeClass_insert (node : Node α) (chunk : Chunk) (value : α) :
    (node.insert chunk value).sizeClass = node.sizeClass :=
  Layout.sizeClass_insert node.layout node.count chunk value

theorem sizeClass_replace (node : Node α) (chunk : Chunk) (value : α) :
    (node.replace chunk value).sizeClass = node.sizeClass :=
  Layout.sizeClass_replace node.layout node.count chunk value

theorem sizeClass_erase (node : Node α) (chunk : Chunk) :
    (node.erase chunk).sizeClass = node.sizeClass :=
  Layout.sizeClass_erase node.layout node.count chunk

end Node
end AdaptiveRadix
