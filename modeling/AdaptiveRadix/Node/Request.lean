import AdaptiveRadix.Node.Basic

namespace AdaptiveRadix
namespace Node

/-!
# Calls on a node

What can be asked of a single node, as data.  A node only ever comes about from a vacant
one by a list of such calls, so what holds of every node is said of every such list.
-/

/-- A call.  Only an insertion takes something for granted: that the chunk has no entry
and the node is not full. -/
inductive Request (α : Type) where
  | insert (chunk : Chunk) (value : α)
  | replace (chunk : Chunk) (value : α)
  | erase (chunk : Chunk)
  | lookup (chunk : Chunk)
  | forEach
deriving DecidableEq, Repr

/-- What a call returns, or what it passed to the procedure it was given. -/
inductive Answer (α : Type) where
  | done
  | value (value? : Option α)
  | entries (entries : List (Entry α))
deriving DecidableEq, Repr

variable {α : Type}

/-- The node after a call and its answer.  A replacement writes through a search for the
entry and a removal begins with one, so both answer what the search found. -/
def perform (node : Node α) : Request α -> Node α × Answer α
  | .insert chunk value => (node.insert chunk value, .done)
  | .replace chunk value => (node.replace chunk value, .value (node.get? chunk))
  | .erase chunk =>
      match node.get? chunk with
      | some value => (node.erase chunk, .value (some value))
      | none => (node, .value none)
  | .lookup chunk => (node, .value (node.get? chunk))
  | .forEach => (node, .entries node.entries)

end Node
end AdaptiveRadix
