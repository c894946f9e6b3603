import AdaptiveRadix.Benchmark.Keys
import AdaptiveRadix.Stats.Report
import AdaptiveRadix.Tree.Update
import Std.Data.HashMap
import Std.Data.TreeMap

namespace AdaptiveRadix
namespace Benchmark

/-!
# Indexes and workloads

What a benchmark compares: the radix tree against an ordered map and a hash map, each
loaded with the same bindings.  The radix tree has no byte limit here, so no
insertion is refused.
-/

/-- The kinds of index. -/
inductive IndexKind where
  | radix
  | ordered
  | hashed
deriving DecidableEq, Repr

namespace IndexKind

def label : IndexKind -> String
  | radix => "Bfm"
  | ordered => "BTree"
  | hashed => "SingleHashMap"

def all : List IndexKind :=
  [hashed, ordered, radix]

end IndexKind

/-- The kinds of workload. -/
inductive Workload where
  | readOnly
  | insertOnly
  | updateOnly
  | deleteInsert
  | reaped
deriving DecidableEq, Repr

namespace Workload

def label : Workload -> String
  | readOnly => "ReadOnly"
  | insertOnly => "InsertOnly"
  | updateOnly => "UpdateOnly"
  | deleteInsert => "DeleteInsert"
  | reaped => "Reaped"

def all : List Workload :=
  [readOnly, insertOnly, updateOnly, deleteInsert, reaped]

end Workload

/-- An index under test. -/
inductive Index where
  | radix (tree : Tree)
  | ordered (map : Std.TreeMap Key UInt64)
  | hashed (map : Std.HashMap Key UInt64)

namespace Index

/-- An index of the given kind without bindings. -/
def empty : IndexKind -> Index
  | .radix => radix (Tree.empty none)
  | .ordered => ordered ∅
  | .hashed => hashed ∅

def insert (index : Index) (key : Key) (value : UInt64) : Index :=
  match index with
  | radix tree => radix (tree.insert key value).state
  | ordered map => ordered (map.insert key value)
  | hashed map => hashed (map.insert key value)

def get? (index : Index) (key : Key) : Option UInt64 :=
  match index with
  | radix tree => tree.get? key
  | ordered map => map[key]?
  | hashed map => map[key]?

/-- Unbind a key.  The answer says whether it was bound. -/
def erase (index : Index) (key : Key) : Index × Bool :=
  match index with
  | radix tree =>
      let rest := tree.erase key
      (radix rest.state, rest.result)
  | ordered map => (ordered (map.erase key), map.contains key)
  | hashed map => (hashed (map.erase key), map.contains key)

/-- Statistics, which only the radix tree keeps. -/
def stats? : Index -> Option Stats
  | radix tree => some tree.stats
  | ordered _ | hashed _ => none

/-- What is printed about an index: a report and a blank line, or nothing. -/
def printed (index : Index) : String :=
  match index.stats? with
  | some stats => stats.report ++ "\n"
  | none => ""

/-- Set the bits of a mark beside those that its word has. -/
def marked (index : Index) (mark : Mark) : Index :=
  index.insert mark.key ((index.get? mark.key).getD 0 ||| mark.bits)

/-- Load what a workload starts from: bitmaps of dead tuples for the one that reaps,
the first `count` numbers under their spread keys for every other. -/
def load (index : Index) (workload : Workload) (count : Nat) : Index :=
  match workload with
  | .reaped =>
      (List.range count).foldl
        (fun index block => (deadMarks (UInt64.ofNat block)).foldl marked index) index
  | _ =>
      (List.range count).foldl
        (fun index number => index.insert (hashKey (UInt64.ofNat number)) (UInt64.ofNat number)) index

/-!
## Probes

What a run asks of a loaded index and compares with what was loaded.  A run that only
reads expects every number under its spread key; one that reaps expects to find a
tuple's bit exactly when the tuple is dead.
-/

/-- Whether a number is found under its spread key. -/
def readsBack (index : Index) (number : UInt64) : Bool :=
  index.get? (hashKey number) == some number

end Index
end Benchmark
end AdaptiveRadix
