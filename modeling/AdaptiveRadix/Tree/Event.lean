import AdaptiveRadix.Key
import AdaptiveRadix.SizeClass

namespace AdaptiveRadix

/-!
# Events

What an operation reports about changes of shape, and about room it was refused.
Events are data that come back with the result of an operation, in the order in
which things happened.
-/

inductive Severity where
  | trace
  | debug
deriving DecidableEq, Repr

namespace Severity

def label : Severity -> String
  | trace => "TRACE"
  | debug => "DEBUG"

end Severity

inductive Event where
  /-- The first key came into an empty tree, whose root is at `level`. -/
  | created (key : Key) (level : Nat)
  /-- The root was raised. -/
  | raised (low high : Nat)
  /-- A full node moved to the next class. -/
  | grew (family : Family) (small large : SizeClass) (level : Nat)
  /-- The last key left the tree. -/
  | emptied (key : Key)
  /-- A demand did not fit under the byte limit. -/
  | overLimit (requested available limit : Nat)
  /-- The system refused a request for room. -/
  | refused (requested : Nat)
deriving DecidableEq, Repr

namespace Event

def severity : Event -> Severity
  | created .. | raised .. | grew .. | emptied .. => .trace
  | overLimit .. | refused .. => .debug

def message : Event -> String
  | created .. => "created tree from empty"
  | raised .. => "extended tree height"
  | grew .. => "grew node"
  | emptied .. => "tree became empty"
  | overLimit .. => "node reservation exceeds memory limit"
  | refused .. => "system allocator refused node reservation"

/-- The named particulars of an event, as text.  Levels are given by their shift. -/
def fields : Event -> List (String × String)
  | created key level =>
      [("key", toString key.toNat), ("root_shift", toString (Key.shift level))]
  | raised low high =>
      [("old_shift", toString (Key.shift low)), ("new_shift", toString (Key.shift high))]
  | grew family small large level =>
      [("family", family.label), ("from", toString small.capacity),
        ("to", toString large.capacity), ("shift", toString (Key.shift level))]
  | emptied key => [("key", toString key.toNat)]
  | overLimit requested available limit =>
      [("requested", toString requested), ("available", toString available),
        ("limit", toString limit)]
  | refused requested =>
      [("requested", toString requested),
        ("error", "memory allocation failed because the memory allocator returned an error")]

end Event

/-- What an operation leaves behind: the new state, the answer, and the events. -/
structure Outcome (σ ρ : Type) where
  state : σ
  result : ρ
  events : List Event

end AdaptiveRadix
