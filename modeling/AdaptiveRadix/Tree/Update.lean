import AdaptiveRadix.Tree.Basic
import AdaptiveRadix.Tree.Growth
import AdaptiveRadix.Tree.Pruning

namespace AdaptiveRadix

/-!
# Changing a tree

Insertion looks first and changes nothing; it then asks for the room that all of its
steps take together.  When that is refused, the tree is as it was, but for the room
that some pools may have obtained.  After it is granted nothing can fail.

A key that is present gets its new value in place, which takes no room and is never
refused.
-/

namespace Root

/-- Raise a root to a higher level. -/
def raised (root : Root) (high : Nat) (ledger : Ledger) : Root × Ledger :=
  let tall := root.top.wrapped ledger.pools (high - root.level)
  (⟨root.level + (high - root.level), tall.1⟩,
    { pools := tall.2, events := ledger.events ++ [.raised root.level high] })

end Root

namespace Tree

/-- Give a key that is present another value. -/
def replace (tree : Tree) (key : Key) (value : UInt64) : Tree :=
  { tree with root? := tree.root?.map fun root => ⟨root.level, root.top.replace key value⟩ }

/-- Add a key that is absent, in room made before. -/
def added (tree : Tree) (key : Key) (value : UInt64) : Tree × List Event :=
  match tree.root? with
  | none =>
      let level := key.topLevel
      let path := Subtree.chain key value tree.pools level
      ({ tree with
          root? := some ⟨level, path.1⟩
          ceiling := Key.bound level
          pools := path.2
          size := tree.size + 1 },
        [.created key level])
  | some root =>
      let tooLow := tree.ceiling < key
      let ledger : Ledger := ⟨tree.pools, []⟩
      let tall := if tooLow then root.raised key.topLevel ledger else (root, ledger)
      let grown := tall.1.top.insert key value tall.2
      ({ tree with
          root? := some ⟨tall.1.level, grown.1⟩
          ceiling := if tooLow then Key.bound key.topLevel else tree.ceiling
          pools := grown.2.pools
          size := tree.size + 1 },
        grown.2.events)

/-- Bind a key while the system grants the given number of requests for room.  The
answer says whether the key was present. -/
def insertWithin (tree : Tree) (allowance : Allowance) (key : Key) (value : UInt64) :
    Outcome Tree (Except OutOfMemory Bool) :=
  let placement := tree.placement key
  if placement = .present then ⟨tree.replace key value, .ok true, []⟩
  else
    match tree.pools.reserve tree.limit? allowance placement.demand with
    | .granted pools =>
        let grown := { tree with pools := pools }.added key value
        ⟨grown.1, .ok false, grown.2⟩
    | .overLimit shortage limit =>
        ⟨tree, .error shortage, [.overLimit shortage.requested shortage.available limit]⟩
    | .refused pools shortage =>
        ⟨{ tree with pools := pools }, .error shortage, [.refused shortage.requested]⟩

/-- Bind a key while the system grants every request for room. -/
def insert (tree : Tree) (key : Key) (value : UInt64) : Outcome Tree (Except OutOfMemory Bool) :=
  tree.insertWithin none key value

/-- Give a key another value if it is present, and say what its value was. -/
def update (tree : Tree) (key : Key) (value : UInt64) : Tree × Option UInt64 :=
  match tree.get? key with
  | some old => (tree.replace key value, some old)
  | none => (tree, none)

/-- Unbind a key.  The answer says whether it was present. -/
def erase (tree : Tree) (key : Key) : Outcome Tree Bool :=
  match tree.root?, tree.get? key with
  | some root, some _ =>
      let rest := root.top.erase key tree.pools
      let smaller : Tree :=
        { tree with
          root? := rest.1.map fun top => ⟨root.level, top⟩
          ceiling := if rest.1.isNone then 0 else tree.ceiling
          pools := rest.2
          size := tree.size - 1 }
      ⟨smaller, true, if rest.1.isNone then [.emptied key] else []⟩
  | _, _ => ⟨tree, false, []⟩

-- The wrapper that raises the root has one entry, and so has to grow for the second key.
example : (((empty none).insert 5 7).state.insert 256 8).events =
    [.raised 0 1, .grew .inner .c1 .c4 1] := by decide +kernel

end Tree
end AdaptiveRadix
