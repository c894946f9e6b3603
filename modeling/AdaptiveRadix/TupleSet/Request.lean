import AdaptiveRadix.TupleSet.Basic

namespace AdaptiveRadix
namespace TupleSet

/-!
# Requests to a set of tuples

The calls that a set of tuples answers, as data.  An addition comes with what the system
grants while it runs; an addition of many tuples, with what it grants for each word.
-/

/-- A call. -/
inductive Request where
  | insert (tuple : TupleId) (allowance : Allowance)
  | insertMany (block : UInt32) (offsets : List UInt16) (allowed : Key -> Allowance)
  | contains (tuple : TupleId)
  | erase (tuple : TupleId)

/-- What a call returns. -/
inductive Answer where
  | inserted (result : Except InsertError Bool)
  | added (result : Except InsertError Nat)
  | flag (flag : Bool)

/-- The state after a call and its answer. -/
def perform (set : TupleSet) : Request -> TupleSet × Answer
  | .insert tuple allowance =>
      let outcome := set.insertWithin allowance tuple
      (outcome.state, .inserted outcome.result)
  | .insertMany block offsets allowed =>
      let outcome := set.insertManyWithin allowed block offsets
      (outcome.state, .added outcome.result)
  | .contains tuple => (set, .flag (set.contains tuple))
  | .erase tuple =>
      let outcome := set.erase tuple
      (outcome.state, .flag outcome.result)

end TupleSet
end AdaptiveRadix
