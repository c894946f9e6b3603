import AdaptiveRadix.Tree.Update
import AdaptiveRadix.Tree.Visit

namespace AdaptiveRadix

/-!
# Requests

The calls that a tree answers, as data.  A tree is only ever reached from an empty one
by a list of them, so what holds of every state is said of every such list.
-/

/-- A call.  An insertion comes with what the system grants while it runs. -/
inductive Request where
  | insert (key : Key) (value : UInt64) (allowance : Allowance)
  | update (key : Key) (value : UInt64)
  | erase (key : Key)
  | lookup (key : Key)
  | size
  | isEmpty
  | forEach
  | toList
deriving DecidableEq, Repr

/-- What a call returns, or what it passed to the procedure it was given. -/
inductive Answer where
  | inserted (result : Except OutOfMemory Bool)
  | value (value? : Option UInt64)
  | flag (flag : Bool)
  | count (count : Nat)
  | bindings (bindings : List (Key × UInt64))
deriving Repr

namespace Tree

/-- The state after a call and its answer. -/
def perform (tree : Tree) : Request -> Tree × Answer
  | .insert key value allowance =>
      let outcome := tree.insertWithin allowance key value
      (outcome.state, .inserted outcome.result)
  | .update key value =>
      let updated := tree.update key value
      (updated.1, .value updated.2)
  | .erase key =>
      let outcome := tree.erase key
      (outcome.state, .flag outcome.result)
  | .lookup key => (tree, .value (tree.get? key))
  | .size => (tree, .count tree.size)
  | .isEmpty => (tree, .flag tree.isEmpty)
  | .forEach =>
      (tree, .bindings (tree.forEach (fun seen key value => seen ++ [(key, value)]) []))
  | .toList => (tree, .bindings tree.toList)

/-- The state after some calls. -/
def after (tree : Tree) (requests : List Request) : Tree :=
  requests.foldl (fun tree request => (tree.perform request).1) tree

/-- Some calls with their answers. -/
def calls (tree : Tree) : List Request -> List (Request × Answer)
  | [] => []
  | request :: rest => (request, (tree.perform request).2) :: (tree.perform request).1.calls rest

end Tree
end AdaptiveRadix
