import AdaptiveRadix.TupleSet.Mark
import AdaptiveRadix.Tree.Update

namespace AdaptiveRadix

/-!
# Sets of tuples

A set of tuples is a tree of bitmaps and a count.  A tuple is in the set when the bit
of its mark is set in the word under its key.  No word in the tree is zero: the last
bit of a word takes its key with it, and clearing any other bit changes the word in
place, so removal never needs room.
-/

/-- The tree of bitmaps, the width of an offset, and the number of tuples. -/
structure TupleSet where
  tree : Tree
  offsetBits : Nat
  size : Nat
  offsetBits_le : offsetBits ≤ 16

namespace TupleSet

/-- Why a tree and a width do not make a set. -/
inductive SetupError where
  | treeNotEmpty
  | offsetsTooWide
deriving DecidableEq, Repr

/-- Why tuples were not added. -/
inductive InsertError where
  | offsetOutOfRange (offset : UInt16) (offsetBits : Nat)
  | outOfMemory (shortage : OutOfMemory)
deriving DecidableEq, Repr

namespace SetupError

def message : SetupError -> String
  | treeNotEmpty => "backing tree must start out empty"
  | offsetsTooWide => "offsets are 16 bits wide"

end SetupError

namespace InsertError

def message : InsertError -> String
  | offsetOutOfRange offset offsetBits =>
      s!"offset {offset.toNat} does not fit in {offsetBits} offset bits"
  | outOfMemory shortage => shortage.message

end InsertError

/-- The width that holds the offsets of a page of eight kibibytes, at most 291. -/
def defaultOffsetBits : Nat :=
  9

/-- A set without tuples over a tree without keys. -/
def ofTree (tree : Tree) (offsetBits : Nat) : Except SetupError TupleSet :=
  if tree.isEmpty then
    if narrow : offsetBits ≤ 16 then .ok ⟨tree, offsetBits, 0, narrow⟩
    else .error .offsetsTooWide
  else .error .treeNotEmpty

def isEmpty (set : TupleSet) : Bool :=
  set.size == 0

/-- The word under a key; no word counts as zero. -/
def word (set : TupleSet) (key : Key) : UInt64 :=
  (set.tree.get? key).getD 0

/-- Whether a tuple is in the set.  An offset that does not fit never is. -/
def contains (set : TupleSet) (tuple : TupleId) : Bool :=
  match tuple.mark? set.offsetBits with
  | some mark => set.word mark.key &&& mark.bits != 0
  | none => false

/-- Set the bits of a mark while the system grants the given number of requests for room.
The answer is the number of bits that were not set. -/
def markedWithin (set : TupleSet) (allowance : Allowance) (mark : Mark) :
    Outcome TupleSet (Except InsertError Nat) :=
  let old := set.word mark.key
  let new := old ||| mark.bits
  if new = old then ⟨set, .ok 0, []⟩
  else
    let bound := set.tree.insertWithin allowance mark.key new
    match bound.result with
    | .error shortage => ⟨{ set with tree := bound.state }, .error (.outOfMemory shortage), bound.events⟩
    | .ok _ =>
        let fresh := (new ^^^ old).toBitVec.cpop.toNat
        ⟨{ set with tree := bound.state, size := set.size + fresh }, .ok fresh, bound.events⟩

/-- Set the bits of marks in turn until one is refused.  What the system grants is given
for the word under each key. -/
def markedAllWithin (set : TupleSet) (allowed : Key -> Allowance) :
    List Mark -> Outcome TupleSet (Except InsertError Nat)
  | [] => ⟨set, .ok 0, []⟩
  | mark :: rest =>
      let first := set.markedWithin (allowed mark.key) mark
      match first.result with
      | .error error => ⟨first.state, .error error, first.events⟩
      | .ok fresh =>
          let others := first.state.markedAllWithin allowed rest
          ⟨others.state, others.result.map (fresh + ·), first.events ++ others.events⟩

/-- The marks of offsets of one block, or the first offset that does not fit. -/
def marks (set : TupleSet) (block : UInt32) : List UInt16 -> Except InsertError (List Mark)
  | [] => .ok []
  | offset :: rest =>
      match TupleId.mark? ⟨block, offset⟩ set.offsetBits with
      | some mark => (set.marks block rest).map (mark :: ·)
      | none => .error (.offsetOutOfRange offset set.offsetBits)

/-- Add a tuple while the system grants the given number of requests for room.  The answer
says whether it is new. -/
def insertWithin (set : TupleSet) (allowance : Allowance) (tuple : TupleId) :
    Outcome TupleSet (Except InsertError Bool) :=
  match tuple.mark? set.offsetBits with
  | none => ⟨set, .error (.offsetOutOfRange tuple.offset set.offsetBits), []⟩
  | some mark =>
      let added := set.markedWithin allowance mark
      ⟨added.state, added.result.map (· != 0), added.events⟩

/-- Add a tuple while the system grants every request for room. -/
def insert (set : TupleSet) (tuple : TupleId) : Outcome TupleSet (Except InsertError Bool) :=
  set.insertWithin none tuple

/-- Add tuples of one block, one word at a time in ascending order of keys.  The
answer is the number of new ones.  Every offset is looked at before anything is
added; when room runs out, what was added before stays. -/
def insertManyWithin (set : TupleSet) (allowed : Key -> Allowance) (block : UInt32)
    (offsets : List UInt16) : Outcome TupleSet (Except InsertError Nat) :=
  match set.marks block offsets with
  | .error error => ⟨set, .error error, []⟩
  | .ok marks => set.markedAllWithin allowed (Mark.joined (marks.mergeSort Mark.precedes))

/-- Add tuples of one block while the system grants every request for room. -/
def insertMany (set : TupleSet) (block : UInt32) (offsets : List UInt16) :
    Outcome TupleSet (Except InsertError Nat) :=
  set.insertManyWithin (fun _ => none) block offsets

/-- Remove a tuple.  The answer says whether it was in the set. -/
def erase (set : TupleSet) (tuple : TupleId) : Outcome TupleSet Bool :=
  match tuple.mark? set.offsetBits with
  | none => ⟨set, false, []⟩
  | some mark =>
      let old := set.word mark.key
      if old &&& mark.bits = 0 then ⟨set, false, []⟩
      else if old = mark.bits then
        let rest := set.tree.erase mark.key
        ⟨{ set with tree := rest.state, size := set.size - 1 }, true, rest.events⟩
      else
        let rest := set.tree.update mark.key (old &&& ~~~mark.bits)
        ⟨{ set with tree := rest.1, size := set.size - 1 }, true, []⟩

end TupleSet
end AdaptiveRadix
