import AdaptiveRadix.Pool.Slab

namespace AdaptiveRadix
namespace Slab

/-!
# Calls on a slab

What can be asked of a slab, as data, and what a caller learns from it.  A slab is only
ever reached from an empty one by a list of such calls, so what holds of every slab is
said of every such list.
-/

/-- A call.  Only a release takes something for granted: that the slot is in use. -/
inductive Request (α : Type) where
  | take (value : α)
  | release (slot : Nat)
  | grow (wanted least : Nat)
deriving DecidableEq, Repr

/-- What came of a call: a slot handed out, a slot taken back, or only some room. -/
inductive Turn (α : Type) where
  | took (slot : Nat) (value : α)
  | gave (slot : Nat)
  | grew
deriving DecidableEq, Repr

variable {α : Type}

/-- The slab after a call, and what came of it. -/
def perform (slab : Slab α) : Request α -> Slab α × Turn α
  | .take value => ((slab.take value).2, .took (slab.take value).1 value)
  | .release slot => (slab.release slot, .gave slot)
  | .grow wanted least => (slab.grown wanted least, .grew)

end Slab
end AdaptiveRadix
