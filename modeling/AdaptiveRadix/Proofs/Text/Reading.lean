import Mathlib.Data.List.Basic
import AdaptiveRadix.Text

namespace AdaptiveRadix
namespace Text

/-!
# Reading texts back

A reader takes what it reads off the front of a text and leaves the rest, or fails.  Each
thing that this library prints has a reader, and a lemma that the reader gets it back
whatever is printed after it.  Only numerals ask something of the rest: they end where their
digits end, so it must not start with another digit.
-/

abbrev Reader (α : Type) := StateT (List Char) Option α

namespace Reader

/-- Words that have to stand here. -/
def literal (words : String) : Reader Unit := fun text =>
  (words.toList.isPrefixOf? text).map fun rest => ((), rest)

/-- Blanks, as many as there are. -/
def columns : Reader Nat := fun text =>
  some ((text.takeWhile (· == ' ')).length, text.dropWhile (· == ' '))

/-- The value of a capital digit. -/
def digit? (base : Nat) (char : Char) : Option Nat :=
  ("0123456789ABCDEF".toList.take base).idxOf? char

/-- The number that some digits stand for. -/
def valueOf (base : Nat) (digits : List Char) : Nat :=
  digits.foldl (fun number char => base * number + (digit? base char).getD 0) 0

/-- A numeral. -/
def number (base : Nat) : Reader Nat := fun text =>
  let isDigit := fun char => (digit? base char).isSome
  if text.takeWhile isDigit = [] then none
  else some (valueOf base (text.takeWhile isDigit), text.dropWhile isDigit)

/-- The item of a list that a measure tells by the number that stands here. -/
def numbered {α : Type} (items : List α) (measure : α -> Nat) : Reader α := do
  let found ← number 10
  StateT.lift (items.find? fun item => measure item == found)

variable {rest : List Char} {base : Nat}

theorem run_literal (words : String) (rest : List Char) :
    (literal words).run (words.toList ++ rest) = some ((), rest) := by
  have stripped : words.toList.isPrefixOf? (words.toList ++ rest) = some rest :=
    List.isPrefixOf?_eq_some_iff_append_eq.mpr rfl
  exact congrArg (Option.map _) stripped

/-- What a reader that takes characters of one kind sees. -/
private theorem span_append {kind : Char -> Bool} {words : List Char}
    (inside : ∀ char ∈ words, kind char = true) (ends : ∀ char ∈ rest.head?, kind char = false) :
    (words ++ rest).takeWhile kind = words ∧ (words ++ rest).dropWhile kind = rest := by
  have stop : rest.takeWhile kind = [] ∧ rest.dropWhile kind = rest := by
    cases rest with
    | nil => exact ⟨rfl, rfl⟩
    | cons char rest => simp [ends char rfl]
  rw [List.takeWhile_append_of_pos inside, List.dropWhile_append_of_pos inside, stop.1, stop.2,
    List.append_nil]
  exact ⟨rfl, rfl⟩

theorem run_columns (count : Nat) (ends : ∀ char ∈ rest.head?, (char == ' ') = false) :
    columns.run ((blanks count).toList ++ rest) = some (count, rest) := by
  have inside : ∀ char ∈ (blanks count).toList, (char == ' ') = true := by
    intro char listed
    rw [blanks, String.toList_ofList] at listed
    exact beq_iff_eq.mpr (List.eq_of_mem_replicate listed)
  rcases span_append inside ends with ⟨taken, left⟩
  show some _ = _
  rw [taken, left, blanks, String.toList_ofList, List.length_replicate]

/-! ## Numerals -/

/-- The capital digits of a number. -/
def numeral (base number : Nat) : List Char :=
  (Nat.toDigits base number).map Char.toUpper

theorem numeral_eq (proper : 1 < base) (number : Nat) :
    numeral base number =
      if number < base then [number.digitChar.toUpper]
      else numeral base (number / base) ++ [(number % base).digitChar.toUpper] := by
  rw [numeral, Nat.toDigits_eq_if proper]
  split
  · rfl
  · rw [List.map_append]
    rfl

theorem toList_hex (number : Nat) : (hex number).toList = numeral 16 number := by
  rw [hex, String.toList_ofList, numeral]

private theorem toUpper_of_isDigit {char : Char} (digit : char.isDigit = true) :
    char.toUpper = char := by
  have last : char.val.toNat ≤ 57 := by
    rw [Char.isDigit, Bool.and_eq_true, decide_eq_true_eq, decide_eq_true_eq] at digit
    exact UInt32.le_iff_toNat_le.mp digit.2
  apply dif_neg
  intro small
  exact absurd (Nat.le_trans (UInt32.le_iff_toNat_le.mp small.1) last) (by decide)

/-- Decimal digits have no other case. -/
theorem toList_decimal (number : Nat) : (toString number).toList = numeral 10 number := by
  rw [Nat.toString_eq_ofList_toDigits, String.toList_ofList, numeral]
  refine ((List.map_congr_left fun char listed => ?_).trans (List.map_id _)).symm
  exact toUpper_of_isDigit (Nat.isDigit_of_mem_toDigits (by decide) (by decide) listed)

private theorem digit?_digitChar {digit : Nat} (proper : base ≤ 16) (small : digit < base) :
    digit? base digit.digitChar.toUpper = some digit := by
  have each : ∀ base : Fin 17, ∀ digit : Fin 16, digit.val < base.val ->
      digit? base.val digit.val.digitChar.toUpper = some digit.val := by
    decide +kernel
  exact each ⟨base, Nat.lt_succ_of_le proper⟩ ⟨digit, Nat.lt_of_lt_of_le small proper⟩ small

theorem isSome_digit? (first : 1 < base) (last : base ≤ 16) (number : Nat) :
    ∀ char ∈ numeral base number, (digit? base char).isSome = true := by
  induction number using Nat.strongRecOn with
  | _ number inductionHypothesis =>
      intro char listed
      rw [numeral_eq first] at listed
      split at listed
      case isTrue small =>
        rw [List.mem_singleton.mp listed, digit?_digitChar last small]
        rfl
      case isFalse large =>
        rcases List.mem_append.mp listed with higher | lowest
        · exact inductionHypothesis _ (Nat.div_lt_self (by omega) first) char higher
        · rw [List.mem_singleton.mp lowest, digit?_digitChar last (Nat.mod_lt _ (by omega))]
          rfl

private theorem valueOf_numeral (first : 1 < base) (last : base ≤ 16) (number : Nat) :
    valueOf base (numeral base number) = number := by
  induction number using Nat.strongRecOn with
  | _ number inductionHypothesis =>
      rw [numeral_eq first]
      split
      case isTrue small =>
        rw [valueOf, List.foldl_cons, List.foldl_nil, digit?_digitChar last small, Nat.mul_zero,
          Nat.zero_add]
        rfl
      case isFalse large =>
        have higher := inductionHypothesis _ (Nat.div_lt_self (by omega) first)
        rw [valueOf] at higher
        rw [valueOf, List.foldl_append, higher, List.foldl_cons, List.foldl_nil,
          digit?_digitChar last (Nat.mod_lt _ (by omega))]
        exact Nat.div_add_mod number base

theorem numeral_ne_nil (first : 1 < base) (number : Nat) : numeral base number ≠ [] := by
  rw [numeral_eq first]
  split
  · exact List.cons_ne_nil _ _
  · exact List.append_ne_nil_of_right_ne_nil _ (List.cons_ne_nil _ _)

private theorem run_digits {digits : List Char} (nonempty : digits ≠ [])
    (inside : ∀ char ∈ digits, (digit? base char).isSome = true)
    (ends : ∀ char ∈ rest.head?, (digit? base char).isSome = false) :
    (number base).run (digits ++ rest) = some (valueOf base digits, rest) := by
  rcases span_append inside ends with ⟨taken, left⟩
  show (if _ then _ else _) = _
  rw [taken, left, if_neg nonempty]

theorem run_number (first : 1 < base) (last : base ≤ 16) (found : Nat)
    (ends : ∀ char ∈ rest.head?, (digit? base char).isSome = false) :
    (number base).run (numeral base found ++ rest) = some (found, rest) := by
  rw [run_digits (numeral_ne_nil first found) (isSome_digit? first last found) ends,
    valueOf_numeral first last]

/-- A byte may have a zero in front. -/
theorem run_hexByte (byte : UInt8) (ends : ∀ char ∈ rest.head?, (digit? 16 char).isSome = false) :
    (number 16).run ((hexByte byte).toList ++ rest) = some (byte.toNat, rest) := by
  rw [hexByte]
  split
  case isTrue _ =>
    have inside : ∀ char ∈ '0' :: numeral 16 byte.toNat, (digit? 16 char).isSome = true :=
      List.forall_mem_cons.mpr ⟨rfl, isSome_digit? (by decide) (by decide) _⟩
    rw [String.toList_append, toList_hex]
    refine (run_digits (List.cons_ne_nil _ _) inside ends).trans ?_
    exact congrArg (fun number => some (number, rest)) (valueOf_numeral (by decide) (by decide) _)
  case isFalse _ =>
    rw [toList_hex]
    exact run_number (by decide) (by decide) _ ends

theorem run_numbered {α : Type} {items : List α} {measure : α -> Nat} {item : α}
    (found : (items.find? fun other => measure other == measure item) = some item)
    (ends : ∀ char ∈ rest.head?, (digit? 10 char).isSome = false) :
    (numbered items measure).run (numeral 10 (measure item) ++ rest) = some (item, rest) := by
  rw [numbered, StateT.run_bind, run_number (by decide) (by decide) _ ends]
  simp only [Option.bind_eq_bind, Option.bind_some, StateT.run_lift, found]
  rfl

theorem not_mem_numeral (first : 1 < base) (last : base ≤ 16) {char : Char}
    (other : digit? base char = none) (found : Nat) : char ∉ numeral base found := by
  intro listed
  have digit := isSome_digit? first last found char listed
  rw [other] at digit
  cases digit

end Reader

/-! ## Lines -/

/-- The lines of a text in which every line ends in a line feed. -/
def linesOf (text : String) : List (List Char) :=
  (text.toList.splitOn '\n').dropLast

theorem linesOf_join {lines : List String} (plain : ∀ line ∈ lines, '\n' ∉ line.toList) :
    linesOf (String.join (lines.map fun line => line ++ "\n")) = lines.map String.toList := by
  have split : (String.join (lines.map fun line => line ++ "\n")).toList.splitOn '\n' =
      lines.map String.toList ++ [[]] := by
    induction lines with
    | nil => rfl
    | cons line lines inductionHypothesis =>
        rcases List.forall_mem_cons.mp plain with ⟨first, others⟩
        have apart : ∀ char ∈ line.toList, (char == '\n') = false := by
          intro char listed
          rw [beq_eq_false_iff_ne]
          rintro rfl
          exact first listed
        rw [List.map_cons, String.join_cons, String.toList_append, String.toList_append,
          List.append_assoc]
        refine (List.splitOnP_append_cons_of_forall_mem apart _ rfl _).trans ?_
        exact congrArg (line.toList :: ·) (inductionHypothesis others)
  rw [linesOf, split, List.dropLast_concat]

end Text
end AdaptiveRadix
