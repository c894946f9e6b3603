import AdaptiveRadix.Proofs.Dump.Reading
import AdaptiveRadix.Proofs.Node.Entries
import AdaptiveRadix.Proofs.Tree.Edges
import AdaptiveRadix.Proofs.Tree.Posts

namespace AdaptiveRadix

/-!
# The outline of a dump

A dump shows the tree by indentation alone.  Here a reader goes by it: a line belongs to the
nearest line above that is indented less, and the entries of a node are the lines two columns
to the right of it, down to the first line that is not to the right of it.  `InPlace` is what
such a reader expects of a line, given all lines above and below; `orderly_lines` says that
the lines of a subtree meet it wherever they are printed.

The induction follows the walk.  It carries the lines around those of a subtree, of which it
needs only that the next line below is not indented deeper than the subtree's own node.
-/

namespace Line

variable {above below lines : List Line} {line : Line} {column : Nat}

def indent : Line -> Nat
  | node indent .. => indent
  | child indent .. => indent
  | value indent .. => indent

/-- The slot of an entry and its chunk. -/
def place? : Line -> Option (Nat × Nat)
  | node .. => none
  | child _ position chunk _ => some (position, chunk)
  | value _ position chunk _ _ => some (position, chunk)

/-- The node that a line is about as a child. -/
def child? : Line -> Option Handle
  | child _ _ _ handle => some handle
  | _ => none

/-- The key and value that a line is about. -/
def binding? : Line -> Option (Nat × Nat)
  | value _ _ _ key bound => some (key, bound)
  | _ => none

/-- The line that a line belongs to: the nearest one above that is indented less. -/
def owner? (above : List Line) (column : Nat) : Option Line :=
  (above.filter fun line => line.indent < column).getLast?

/-- The entries of a node, by slot and chunk. -/
def placesUnder (column : Nat) (below : List Line) : List (Nat × Nat) :=
  ((below.takeWhile fun line => column < line.indent).filter fun line =>
    line.indent = column + 2).filterMap place?

/-- The entries of a node have slots of their own, all within its capacity, and ascend. -/
structure Laid (sizeClass : SizeClass) (count : Nat) (places : List (Nat × Nat)) : Prop where
  counted : places.length = count
  distinct : (places.map Prod.fst).Nodup
  bounded : ∀ place ∈ places, place.1 < sizeClass.capacity
  ascending : (places.map Prod.snd).Pairwise (· < ·)

/-- What the lines above and below make of a line.  The line of a child is followed by that of
the node, four columns to the right of the one it belongs to and eight bits further into the
key.  The key of a value is the partial key of its leaf together with the chunk. -/
def InPlace (above : List Line) (line : Line) (below : List Line) : Prop :=
  match line with
  | node column _ sizeClass count _ _ _ => Laid sizeClass count (placesUnder column below)
  | child indent _ chunk handle =>
      ∃ column sizeClass count shift ownChunk partialKey, indent = column + 2 ∧
        owner? above indent =
          some (node column .inner sizeClass count (shift + 8) ownChunk partialKey) ∧
        ∃ count rest, below = node (column + 4) handle.pool.family handle.pool.sizeClass count shift
          chunk (partialKey ||| chunk <<< (shift + 8)) :: rest
  | value indent _ chunk key _ =>
      ∃ column sizeClass count ownChunk partialKey, indent = column + 2 ∧
        owner? above indent = some (node column .leaf sizeClass count 0 ownChunk partialKey) ∧
        key = partialKey ||| chunk

/-- Every one of some lines is in place among the lines around them. -/
def Orderly (above : List Line) : List Line -> List Line -> Prop
  | [], _ => True
  | line :: lines, below => line.InPlace above (lines ++ below) ∧ Orderly (above ++ [line]) lines below

theorem orderly_append {first second : List Line} :
    Orderly above (first ++ second) below ↔
      Orderly above first (second ++ below) ∧ Orderly (above ++ first) second below := by
  induction first generalizing above with
  | nil => rw [List.nil_append, List.append_nil, Orderly, true_and]
  | cons line first inductionHypothesis =>
      rw [List.cons_append, Orderly, Orderly, inductionHypothesis, List.append_assoc,
        List.append_assoc, List.singleton_append, and_assoc]

/-- Orderly lines are in place one by one. -/
theorem inPlace_of_orderly (orderly : Orderly above lines below) {front back : List Line}
    (split : lines = front ++ line :: back) : line.InPlace (above ++ front) (back ++ below) := by
  rw [split, orderly_append] at orderly
  exact orderly.2.1

/-- Lines that come in blocks are orderly when the blocks are. -/
theorem orderly_flatMap {α : Type} {block : α -> List Line} {items : List α}
    (each : forall front item back, items = front ++ item :: back ->
      Orderly (above ++ front.flatMap block) (block item) (back.flatMap block ++ below)) :
    Orderly above (items.flatMap block) below := by
  induction items generalizing above with
  | nil => exact trivial
  | cons item items inductionHypothesis =>
      rw [List.flatMap_cons, orderly_append]
      constructor
      · have first := each [] item items rfl
        rwa [List.flatMap_nil, List.append_nil] at first
      · apply inductionHypothesis
        intro front other back split
        have later := each (item :: front) other back (congrArg (item :: ·) split)
        rwa [List.flatMap_cons, ← List.append_assoc] at later

/-- Lines belong to the last line above that is not as deep as they are. -/
theorem owner?_eq (lower : line.indent < column) (deep : ∀ other ∈ below, column ≤ other.indent)
    (above : List Line) : owner? (above ++ line :: below) column = some line := by
  have none : (below.filter fun other => other.indent < column) = [] :=
    List.filter_eq_nil_iff.mpr fun other listed =>
      fun shallow => absurd (of_decide_eq_true shallow) (Nat.not_lt.mpr (deep other listed))
  rw [owner?, List.filter_append, List.filter_cons, if_pos (decide_eq_true lower), none,
    List.getLast?_append, List.getLast?_singleton, Option.some_or]

/-! ## The block of a node -/

/-- How the entries of a node are printed: each in a line of its own, what lies below it after
that and deeper. -/
structure Entered {α : Type} (column : Nat) (head : Entry α -> Line)
    (inner : Entry α -> List Line) : Prop where
  indent : forall entry, (head entry).indent = column + 2
  place : forall entry, (head entry).place? = some (entry.position, entry.chunk.toNat)
  deeper : forall entry, ∀ line ∈ inner entry, column + 4 ≤ line.indent

variable {α : Type} {head : Entry α -> Line} {inner : Entry α -> List Line}

namespace Entered

theorem indent_of_mem (entered : Entered column head inner) {entries : List (Entry α)} :
    ∀ line ∈ entries.flatMap (fun entry => head entry :: inner entry), column + 2 ≤ line.indent := by
  intro line listed
  rcases List.mem_flatMap.mp listed with ⟨entry, _, inside⟩
  rcases List.mem_cons.mp inside with rfl | deep
  · exact (entered.indent entry).ge
  · exact (Nat.add_le_add_left (by decide) column).trans (entered.deeper entry line deep)

/-- The reader finds the entries of a node below its line. -/
theorem placesUnder_eq (entered : Entered column head inner) (entries : List (Entry α))
    (fence : ∀ line ∈ below.head?, line.indent ≤ column) :
    placesUnder column (entries.flatMap (fun entry => head entry :: inner entry) ++ below) =
      entries.map fun entry => (entry.position, entry.chunk.toNat) := by
  have inside : ∀ line ∈ entries.flatMap (fun entry => head entry :: inner entry),
      decide (column < line.indent) = true := by
    intro line listed
    exact decide_eq_true (Nat.lt_of_lt_of_le (by omega) (entered.indent_of_mem line listed))
  have stop : (below.takeWhile fun line => decide (column < line.indent)) = [] := by
    cases below with
    | nil => rfl
    | cons line below =>
        exact List.takeWhile_cons_of_neg (by simpa using fence line rfl)
  rw [placesUnder, List.takeWhile_append_of_pos inside, stop, List.append_nil]
  induction entries with
  | nil => rfl
  | cons entry entries inductionHypothesis =>
      have hidden : ((inner entry).filter fun line => line.indent = column + 2) = [] := by
        apply List.filter_eq_nil_iff.mpr
        intro line listed
        have deep := entered.deeper entry line listed
        simp only [decide_eq_true_eq]
        omega
      have rest := inductionHypothesis fun line listed =>
        inside line (List.mem_append_right _ listed)
      rw [List.flatMap_cons, List.filter_append, List.filter_cons,
        if_pos (decide_eq_true (entered.indent entry)), hidden,
        List.filterMap_append, rest, List.filterMap_cons_some (entered.place entry)]
      rfl

/-- The lines of a node and all below it are orderly if those of its entries are. -/
theorem orderly (entered : Entered column head inner) {top : Line} (here : top.indent = column)
    {entries : List (Entry α)} (laid : top.InPlace above
      (entries.flatMap (fun entry => head entry :: inner entry) ++ below))
    (fence : ∀ line ∈ below.head?, line.indent ≤ column)
    (each : ∀ entry ∈ entries, forall above below, owner? above (column + 2) = some top ->
      (∀ line ∈ below.head?, line.indent ≤ column + 4) ->
        Orderly above (head entry :: inner entry) below) :
    Orderly above (top :: entries.flatMap fun entry => head entry :: inner entry) below := by
  refine ⟨laid, orderly_flatMap ?_⟩
  intro front entry back split
  apply each entry (split ▸ List.mem_append_right _ List.mem_cons_self)
  · rw [List.append_assoc, List.singleton_append]
    exact owner?_eq (by omega) (fun line listed => entered.indent_of_mem line listed) above
  · cases back with
    | nil =>
        intro line first
        exact (fence line first).trans (Nat.le_add_right _ _)
    | cons next back =>
        intro line first
        cases Option.some.inj first
        rw [entered.indent]
        omega

end Entered

end Line
end AdaptiveRadix
