import AdaptiveRadix.Text
import AdaptiveRadix.Tree.Visit

namespace AdaptiveRadix

/-!
# The dump of a tree

A text with one line for each visit of the walk, after a line about the tree.  A node
is indented by four columns for each level above it and its entries by two more.
The chunk in a node's own line is the one its pool has on record, while the chunk in
the line of an edge is the one its parent holds.
-/

namespace Visit

/-- The line of one visit. -/
def line (pools : Pools) : Visit -> String
  | node depth handle level count partialKey =>
      let chunk := ((pools.anchor? handle).getD Anchor.root).chunk
      s!"{Text.blanks (4 * depth)}{handle.pool.family.label}: kind {handle.pool.sizeClass.index.val}, " ++
        s!"children: {count}, shift: {Key.shift level}, node chunk: 0x{Text.hexByte chunk}, " ++
        s!"partial key: 0x{Text.hex partialKey.toNat}"
  | child depth position chunk handle =>
      s!"{Text.blanks (4 * depth + 2)}{position}: child chunk: 0x{Text.hexByte chunk}, " ++
        s!"child: {handle.label}"
  | value depth position chunk key bound =>
      s!"{Text.blanks (4 * depth + 2)}{position}: chunk: 0x{Text.hexByte chunk}, " ++
        s!"key: 0x{Text.hex key.toNat}/{key.toNat}, value: 0x{Text.hex bound.toNat}/{bound.toNat}"

end Visit

namespace Tree

/-- The line about the tree as a whole. -/
def headline (tree : Tree) : String :=
  s!"radix tree with {tree.size} entries, max_val: 0x{Text.hex tree.ceiling.toNat}"

def dumpLines (tree : Tree) : List String :=
  tree.headline :: tree.visits.map (Visit.line tree.pools)

/-- The whole text.  Every line ends in a line feed. -/
def dump (tree : Tree) : String :=
  String.join (tree.dumpLines.map fun line => line ++ "\n")

end Tree
end AdaptiveRadix
