import AdaptiveRadix.Tree.Visit

namespace AdaptiveRadix

/-!
# Statistics

Two accounts of a tree are put side by side.  The nodes of each pool and the bytes
they take come from the pools, which count what they hand out; the levels come from
a walk through the nodes.  Ratios are kept as pairs of counts and become doubles
only when asked for, so that nothing is said about them that the counts do not say.
-/

/-- The quotient of two counts as a double; nothing over nothing counts as zero. -/
def ratio (part whole : Nat) : Float :=
  if whole = 0 then 0 else part.toFloat / whole.toFloat

/-- Nodes of one class on one level, and their entries. -/
structure ClassTally where
  nodes : Nat
  entries : Nat
deriving DecidableEq, Repr

/-- What the nodes at one depth are. -/
structure LevelTally where
  depth : Nat
  family : Family
  classes : Vector ClassTally 6
deriving DecidableEq, Repr

namespace LevelTally

/-- A depth at which no node has been counted. -/
def empty (depth : Nat) (family : Family) : LevelTally :=
  ⟨depth, family, Vector.replicate 6 ⟨0, 0⟩⟩

def tally (level : LevelTally) (sizeClass : SizeClass) : ClassTally :=
  level.classes[sizeClass.index]

/-- Count one more node. -/
def counted (level : LevelTally) (sizeClass : SizeClass) (entries : Nat) : LevelTally :=
  let old := level.tally sizeClass
  { level with
    classes := level.classes.set sizeClass.index ⟨old.nodes + 1, old.entries + entries⟩ }

/-- Occupied entries. -/
def used (level : LevelTally) : Nat :=
  SizeClass.total fun sizeClass => (level.tally sizeClass).entries

/-- Entries that there are slots for. -/
def slots (level : LevelTally) : Nat :=
  SizeClass.total fun sizeClass => (level.tally sizeClass).nodes * sizeClass.capacity

def loadFactor (level : LevelTally) : Float :=
  ratio level.used level.slots

/-- Count a visited node among the levels met so far.  A walk meets the first node of
every depth before any deeper one, so a new depth is always the next. -/
def noted (levels : List LevelTally) : Visit -> List LevelTally
  | .node depth handle _ count _ =>
      let known :=
        if levels.length ≤ depth then levels ++ [empty depth handle.pool.family] else levels
      known.modify depth fun level => level.counted handle.pool.sizeClass count
  | _ => levels

end LevelTally

/-- Counts of keys, levels, nodes and bytes. -/
structure Stats where
  entries : Nat
  depth : Nat
  nodes : PerPool Nat
  allocatedBytes : Nat
  levels : List LevelTally
deriving DecidableEq, Repr

namespace Stats

/-- The nodes of one family, by class. -/
def familyNodes (stats : Stats) (family : Family) : List Nat :=
  SizeClass.all.map fun sizeClass => stats.nodes.get ⟨family, sizeClass⟩

/-- Bytes of the nodes of one family. -/
def familyBytes (stats : Stats) (family : Family) : Nat :=
  SizeClass.total fun sizeClass =>
    stats.nodes.get ⟨family, sizeClass⟩ * PoolId.nodeBytes ⟨family, sizeClass⟩

/-- The nodes of one family, whatever their class. -/
def familyTotal (stats : Stats) (family : Family) : Nat :=
  SizeClass.total fun sizeClass => stats.nodes.get ⟨family, sizeClass⟩

def totalNodes (stats : Stats) : Nat :=
  stats.familyTotal .inner + stats.familyTotal .leaf

/-- Bytes of the nodes in use. -/
def liveBytes (stats : Stats) : Nat :=
  stats.familyBytes .inner + stats.familyBytes .leaf

def bytesPerEntry (stats : Stats) : Float :=
  ratio stats.liveBytes stats.entries

def allocatedBytesPerEntry (stats : Stats) : Float :=
  ratio stats.allocatedBytes stats.entries

end Stats

namespace Tree

def stats (tree : Tree) : Stats where
  entries := tree.size
  depth := match tree.root? with
    | some root => root.level
    | none => 0
  nodes := PerPool.tabulate tree.pools.liveNodes
  allocatedBytes := tree.pools.allocatedBytes
  levels := tree.visits.foldl LevelTally.noted []

end Tree
end AdaptiveRadix
