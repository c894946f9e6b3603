import AdaptiveRadix.Proofs.Text.Reading
import AdaptiveRadix.Tree.Dump

namespace AdaptiveRadix

/-!
# Reading a dump

The lines of a dump read back as data.  What a dump says can so be stated of the text itself:
of what a reader finds in it, who has neither the tree nor the walk.  `Visit.told` is what
the reader makes of the line of a visit, and `read?_dump` says that a dump is read as a whole.
-/

/-- What one line of a dump says. -/
inductive Line where
  | node (indent : Nat) (family : Family) (sizeClass : SizeClass)
      (count shift chunk partialKey : Nat)
  | child (indent position chunk : Nat) (handle : Handle)
  | value (indent position chunk key value : Nat)
deriving DecidableEq, Repr

namespace Line

open Text Text.Reader

/-! ## The reader -/

def family : Reader Family :=
  (do literal Family.inner.label; return .inner) <|> (do literal Family.leaf.label; return .leaf)

def handle : Reader Handle := do
  let family ← family
  literal "/"
  let sizeClass ← numbered SizeClass.all SizeClass.capacity
  literal "#"
  let slot ← number 10
  return ⟨⟨family, sizeClass⟩, slot⟩

/-- A number printed in base sixteen and again in base ten. -/
def word : Reader Nat := do
  let found ← number 16
  literal "/"
  let again ← number 10
  if again = found then return found else failure

def nodeFrom (indent : Nat) : Reader Line := do
  let family ← family
  literal ": kind "
  let sizeClass ← numbered SizeClass.all fun sizeClass => sizeClass.index.val
  literal ", children: "
  let count ← number 10
  literal ", shift: "
  let shift ← number 10
  literal ", node chunk: 0x"
  let chunk ← number 16
  literal ", partial key: 0x"
  let partialKey ← number 16
  return node indent family sizeClass count shift chunk partialKey

def childFrom (indent position : Nat) : Reader Line := do
  literal ": child chunk: 0x"
  let chunk ← number 16
  literal ", child: "
  let handle ← handle
  return child indent position chunk handle

def valueFrom (indent position : Nat) : Reader Line := do
  literal ": chunk: 0x"
  let chunk ← number 16
  literal ", key: 0x"
  let key ← word
  literal ", value: 0x"
  let value ← word
  return Line.value indent position chunk key value

/-- A line that starts with a number is about an entry. -/
def entryFrom (indent : Nat) : Reader Line := do
  let position ← number 10
  childFrom indent position <|> valueFrom indent position

def reader : Reader Line := do
  let indent ← columns
  entryFrom indent <|> nodeFrom indent

/-- Read a whole line. -/
def read? (text : List Char) : Option Line :=
  match reader.run text with
  | some (line, []) => some line
  | _ => none

/-! ## What is printed is read back -/

variable {α β : Type} {text rest : List Char} {base : Nat}

/-- A reader and then another. -/
private theorem run_then {first : Reader α} {found : α} (read : first.run text = some (found, rest))
    (second : α -> Reader β) : (first >>= second).run text = (second found).run rest := by
  rw [StateT.run_bind, read]
  rfl

private theorem run_first {first : Reader α} {found : α} (read : first.run text = some (found, rest))
    (second : Reader α) : (first <|> second).run text = some (found, rest) := by
  rw [StateT.run_orElse, read]
  rfl

private theorem run_second {first : Reader α} (failed : first.run text = none) (second : Reader α) :
    (first <|> second).run text = second.run text := by
  rw [StateT.run_orElse, failed]
  rfl

private theorem ends_of_head {char : Char} (here : rest.head? = some char)
    (other : (digit? base char).isSome = false) :
    ∀ char ∈ rest.head?, (digit? base char).isSome = false := by
  intro _ same
  cases here.symm.trans same
  exact other

private theorem ends_nil : ∀ char ∈ ([] : List Char).head?, (digit? base char).isSome = false := by
  intro _ impossible
  cases impossible

theorem run_family (found : Family) (rest : List Char) :
    family.run (found.label.toList ++ rest) = some (found, rest) := by
  cases found <;> rfl

theorem run_handle (found : Handle) : handle.run found.label.toList = some (found, []) := by
  have printed : found.label.toList = found.pool.family.label.toList ++ ("/".toList ++
      (numeral 10 found.pool.sizeClass.capacity ++ ("#".toList ++ (numeral 10 found.slot ++ [])))) := by
    simp only [Handle.label, String.toList_append, List.append_assoc, toList_decimal,
      List.append_nil]
    rfl
  have known : (SizeClass.all.find? fun other => other.capacity == found.pool.sizeClass.capacity) =
      some found.pool.sizeClass := by
    cases found.pool.sizeClass <;> rfl
  rw [printed, handle, run_then (run_family _ _), run_then (run_literal _ _),
    run_then (run_numbered known (ends_of_head rfl rfl)), run_then (run_literal _ _),
    run_then (run_number (by decide) (by decide) _ ends_nil)]
  rfl

theorem run_word (found : Nat) (ends : ∀ char ∈ rest.head?, (digit? 10 char).isSome = false) :
    word.run (numeral 16 found ++ ("/".toList ++ (numeral 10 found ++ rest))) =
      some (found, rest) := by
  rw [word, run_then (run_number (by decide) (by decide) _ (ends_of_head rfl rfl)),
    run_then (run_literal _ _), run_then (run_number (by decide) (by decide) _ ends), if_pos rfl]
  rfl

end Line

namespace Visit

/-- What the line of a visit says. -/
def told (pools : Pools) : Visit -> Line
  | node depth handle level count partialKey =>
      .node (4 * depth) handle.pool.family handle.pool.sizeClass count (Key.shift level)
        ((pools.anchor? handle).getD Anchor.root).chunk.toNat partialKey.toNat
  | child depth position chunk handle =>
      .child (4 * depth + 2) position chunk.toNat handle
  | value depth position chunk key bound =>
      .value (4 * depth + 2) position chunk.toNat key.toNat bound.toNat

end Visit

namespace Line

open Text Text.Reader

variable {rest : List Char}

private theorem ends_blanks {char : Char} (here : rest.head? = some char)
    (other : (char == ' ') = false) : ∀ char ∈ rest.head?, (char == ' ') = false := by
  intro _ same
  cases here.symm.trans same
  exact other

/-- A numeral starts with a digit, so no blank stands before it. -/
private theorem ends_numeral (number : Nat) :
    ∀ char ∈ (numeral 10 number ++ rest).head?, (char == ' ') = false := by
  intro char first
  rw [List.head?_append_of_ne_nil _ (numeral_ne_nil (by decide) number)] at first
  have digit := isSome_digit? (by decide) (by decide) number char (List.mem_of_mem_head? first)
  rw [beq_eq_false_iff_ne]
  rintro rfl
  cases digit

/-! ## The lines of a dump -/

private theorem toList_node (pools : Pools) (depth : Nat) (handle : Handle) (level count : Nat)
    (partialKey : Key) :
    ((Visit.node depth handle level count partialKey).line pools).toList =
      (blanks (4 * depth)).toList ++ (handle.pool.family.label.toList ++ (": kind ".toList ++
        (numeral 10 handle.pool.sizeClass.index.val ++ (", children: ".toList ++
        (numeral 10 count ++ (", shift: ".toList ++ (numeral 10 (Key.shift level) ++
        (", node chunk: 0x".toList ++
        ((hexByte ((pools.anchor? handle).getD Anchor.root).chunk).toList ++
        (", partial key: 0x".toList ++ (numeral 16 partialKey.toNat ++ []))))))))))) := by
  simp only [Visit.line, String.toList_append, List.append_assoc, toList_decimal, ← toList_hex,
    List.append_nil]
  rfl

private theorem toList_child (pools : Pools) (depth position : Nat) (chunk : Chunk)
    (handle : Handle) :
    ((Visit.child depth position chunk handle).line pools).toList =
      (blanks (4 * depth + 2)).toList ++ (numeral 10 position ++ (": child chunk: 0x".toList ++
        ((hexByte chunk).toList ++ (", child: ".toList ++ handle.label.toList)))) := by
  simp only [Visit.line, String.toList_append, List.append_assoc, toList_decimal]
  rfl

private theorem toList_value (pools : Pools) (depth position : Nat) (chunk : Chunk) (key : Key)
    (bound : UInt64) :
    ((Visit.value depth position chunk key bound).line pools).toList =
      (blanks (4 * depth + 2)).toList ++ (numeral 10 position ++ (": chunk: 0x".toList ++
        ((hexByte chunk).toList ++ (", key: 0x".toList ++ (numeral 16 key.toNat ++ ("/".toList ++
        (numeral 10 key.toNat ++ (", value: 0x".toList ++ (numeral 16 bound.toNat ++ ("/".toList ++
        (numeral 10 bound.toNat ++ []))))))))))) := by
  simp only [Visit.line, String.toList_append, List.append_assoc, toList_decimal, ← toList_hex,
    List.append_nil]
  rfl

private theorem read_node (pools : Pools) (depth : Nat) (handle : Handle) (level count : Nat)
    (partialKey : Key) :
    reader.run ((Visit.node depth handle level count partialKey).line pools).toList =
      some ((Visit.node depth handle level count partialKey).told pools, []) := by
  have known : (SizeClass.all.find? fun other => other.index.val == handle.pool.sizeClass.index.val) =
      some handle.pool.sizeClass := by
    cases handle.pool.sizeClass <;> rfl
  have noBlank (rest : List Char) :
      ∀ char ∈ (handle.pool.family.label.toList ++ rest).head?, (char == ' ') = false := by
    cases handle.pool.family <;> exact ends_blanks rfl rfl
  have noEntry (rest : List Char) :
      (entryFrom (4 * depth)).run (handle.pool.family.label.toList ++ rest) = none := by
    cases handle.pool.family <;> rfl
  rw [toList_node, reader, run_then (run_columns _ (noBlank _)), run_second (noEntry _), nodeFrom,
    run_then (run_family _ _), run_then (run_literal _ _),
    run_then (run_numbered known (ends_of_head rfl rfl)), run_then (run_literal _ _),
    run_then (run_number (by decide) (by decide) _ (ends_of_head rfl rfl)),
    run_then (run_literal _ _),
    run_then (run_number (by decide) (by decide) _ (ends_of_head rfl rfl)),
    run_then (run_literal _ _), run_then (run_hexByte _ (ends_of_head rfl rfl)),
    run_then (run_literal _ _), run_then (run_number (by decide) (by decide) _ ends_nil)]
  rfl

private theorem read_child (pools : Pools) (depth position : Nat) (chunk : Chunk) (handle : Handle) :
    reader.run ((Visit.child depth position chunk handle).line pools).toList =
      some ((Visit.child depth position chunk handle).told pools, []) := by
  have inside : (childFrom (4 * depth + 2) position).run (": child chunk: 0x".toList ++
      ((hexByte chunk).toList ++ (", child: ".toList ++ handle.label.toList))) =
        some ((Visit.child depth position chunk handle).told pools, []) := by
    rw [childFrom, run_then (run_literal _ _), run_then (run_hexByte _ (ends_of_head rfl rfl)),
      run_then (run_literal _ _), run_then (run_handle _)]
    rfl
  rw [toList_child, reader, run_then (run_columns _ (ends_numeral _))]
  apply run_first
  rw [entryFrom, run_then (run_number (by decide) (by decide) _ (ends_of_head rfl rfl))]
  exact run_first inside _

private theorem read_value (pools : Pools) (depth position : Nat) (chunk : Chunk) (key : Key)
    (bound : UInt64) :
    reader.run ((Visit.value depth position chunk key bound).line pools).toList =
      some ((Visit.value depth position chunk key bound).told pools, []) := by
  have noChild (rest : List Char) :
      (childFrom (4 * depth + 2) position).run (": chunk: 0x".toList ++ rest) = none := rfl
  rw [toList_value, reader, run_then (run_columns _ (ends_numeral _))]
  apply run_first
  rw [entryFrom, run_then (run_number (by decide) (by decide) _ (ends_of_head rfl rfl)),
    run_second (noChild _), valueFrom, run_then (run_literal _ _),
    run_then (run_hexByte _ (ends_of_head rfl rfl)), run_then (run_literal _ _),
    run_then (run_word _ (ends_of_head rfl rfl)), run_then (run_literal _ _),
    run_then (run_word _ ends_nil)]
  rfl

/-- The line of a visit is read back as what it was to say. -/
theorem read?_line (pools : Pools) (visit : Visit) :
    read? (visit.line pools).toList = some (visit.told pools) := by
  have read : reader.run (visit.line pools).toList = some (visit.told pools, []) := by
    cases visit with
    | node depth handle level count partialKey => exact read_node pools ..
    | child depth position chunk handle => exact read_child pools ..
    | value depth position chunk key bound => exact read_value pools ..
  rw [read?, read]

example : read? "  0: chunk: 0x01, key: 0x1/1, value: 0xA/10".toList = some (.value 2 0 1 1 10) := by
  decide +kernel

/-! ## Whole dumps -/

/-- Read all lines of a dump but the first. -/
def readAll? (text : String) : Option (List Line) :=
  (linesOf text).tail.mapM read?

private theorem plain_decimal (number : Nat) : '\n' ∉ numeral 10 number :=
  not_mem_numeral (by decide) (by decide) rfl number

private theorem plain_hex (number : Nat) : '\n' ∉ numeral 16 number :=
  not_mem_numeral (by decide) (by decide) rfl number

private theorem plain_blanks (count : Nat) : '\n' ∉ (blanks count).toList := by
  rw [blanks, String.toList_ofList]
  intro listed
  exact absurd (List.eq_of_mem_replicate listed) (by decide)

private theorem plain_hexByte (byte : UInt8) : '\n' ∉ (hexByte byte).toList := by
  rw [hexByte]
  split
  · rw [String.toList_append, toList_hex, List.mem_append, not_or]
    exact ⟨by decide, plain_hex _⟩
  · rw [toList_hex]
    exact plain_hex _

private theorem plain_family (family : Family) : '\n' ∉ family.label.toList := by
  cases family <;> decide

private theorem plain_label (handle : Handle) : '\n' ∉ handle.label.toList := by
  simp only [Handle.label, String.toList_append, List.mem_append, toList_decimal, not_or]
  exact ⟨⟨⟨⟨plain_family _, by decide⟩, plain_decimal _⟩, by decide⟩, plain_decimal _⟩

private theorem plain_line (pools : Pools) (visit : Visit) : '\n' ∉ (visit.line pools).toList := by
  cases visit with
  | node depth handle level count partialKey =>
      rw [toList_node]
      simp only [List.mem_append, not_or]
      exact ⟨plain_blanks _, plain_family _, by decide, plain_decimal _, by decide, plain_decimal _,
        by decide, plain_decimal _, by decide, plain_hexByte _, by decide, plain_hex _,
        List.not_mem_nil⟩
  | child depth position chunk handle =>
      rw [toList_child]
      simp only [List.mem_append, not_or]
      exact ⟨plain_blanks _, plain_decimal _, by decide, plain_hexByte _, by decide, plain_label _⟩
  | value depth position chunk key bound =>
      rw [toList_value]
      simp only [List.mem_append, not_or]
      exact ⟨plain_blanks _, plain_decimal _, by decide, plain_hexByte _, by decide, plain_hex _,
        by decide, plain_decimal _, by decide, plain_hex _, by decide, plain_decimal _,
        List.not_mem_nil⟩

private theorem plain_headline (tree : Tree) : '\n' ∉ tree.headline.toList := by
  have printed : tree.headline.toList = "radix tree with ".toList ++ (numeral 10 tree.size ++
      (" entries, max_val: 0x".toList ++ numeral 16 tree.ceiling.toNat)) := by
    unfold Tree.headline
    simp only [String.toList_append, List.append_assoc, toList_decimal, ← toList_hex]
    rfl
  rw [printed]
  simp only [List.mem_append, not_or]
  exact ⟨by decide, plain_decimal _, by decide, plain_hex _⟩

theorem linesOf_dump (tree : Tree) : linesOf tree.dump = tree.dumpLines.map String.toList := by
  apply linesOf_join
  intro line listed
  rcases List.mem_cons.mp listed with rfl | below
  · exact plain_headline tree
  · rcases List.mem_map.mp below with ⟨visit, _, rfl⟩
    exact plain_line _ visit

/-- A dump is read as what the visits of the walk were to say. -/
theorem readAll?_dump (tree : Tree) :
    readAll? tree.dump = some (tree.visits.map (Visit.told tree.pools)) := by
  have each : (read? ∘ String.toList) ∘ Visit.line tree.pools =
      fun visit => pure (visit.told tree.pools) :=
    funext fun visit => read?_line tree.pools visit
  rw [readAll?, linesOf_dump, Tree.dumpLines, List.map_cons, List.tail_cons, List.mapM_map,
    List.mapM_map, each, List.mapM_pure]
  rfl

end Line
end AdaptiveRadix
