import AdaptiveRadix.Stats.Basic
import AdaptiveRadix.Text

namespace AdaptiveRadix

/-!
# The report on a tree

The statistics as a text for people: totals first, then one line for each level.
Sizes are in mebibytes, and every ratio has two decimal places.
-/

namespace LevelTally

/-- The line of one level. -/
def line (level : LevelTally) : String :=
  let classes := SizeClass.all.map fun sizeClass =>
    s!" || N{sizeClass.capacity}: {Text.padLeft 8 (toString (level.tally sizeClass).nodes)}"
  s!"Level: {level.depth} ({level.family.label}) ---" ++ String.join classes ++
    s!" || load factor: {Text.twoPlaces level.loadFactor}"

end LevelTally

namespace Stats

/-- The line of one family: its nodes by class and in total, and their bytes. -/
def familyLine (stats : Stats) (family : Family) : String :=
  let classes := SizeClass.all.map fun sizeClass =>
    let nodes := stats.nodes.get ⟨family, sizeClass⟩
    s!" {sizeClass.capacity}: {nodes},"
  s!"\t{family.label} nodes:" ++ String.join classes ++
    s!" total: {stats.familyTotal family}, total_bytes: {stats.familyBytes family}"

def mebibytes (bytes : Nat) : String :=
  Text.twoPlaces (ratio bytes (1024 * 1024))

def reportLines (stats : Stats) : List String :=
  [ s!"{stats.entries} entries and depth {stats.depth}",
    stats.familyLine .inner,
    stats.familyLine .leaf,
    s!"\t{mebibytes stats.liveBytes} MiB excluding allocator overhead, " ++
      s!"{mebibytes stats.allocatedBytes} MiB including",
    s!"\t{Text.twoPlaces stats.bytesPerEntry} bytes/entry excluding allocator overhead",
    s!"\t{Text.twoPlaces stats.allocatedBytesPerEntry} bytes/entry including allocator overhead" ] ++
  stats.levels.map LevelTally.line

/-- The whole text.  Every line ends in a line feed. -/
def report (stats : Stats) : String :=
  String.join (stats.reportLines.map fun line => line ++ "\n")

end Stats
end AdaptiveRadix
