import FkProf.LogWriter

/-!
# Line numbers

`LogWriter` translates the index of a bytecode to the number of its line with the
line table of the method (`log_writer.cpp:25-79`): a binary search for a place near the
line, and a linear one from there on.

* `bci2line`: the search, with every access to the table checked;
* `exists_approximate`: the binary search stays within the table;
* `getLineNo`: the line number that is written to the log.
-/

namespace FkProf.LogWriter

/-- `jvmtiLineNumberEntry`. -/
structure JvmtiLineNumberEntry where
  startLocation : Jlong
  lineNumber : Jint

/-- The binary search, lines 36-46: where the linear search begins, or the number of the
    line that begins at the bytecode. There is none if an access is outside of the table. -/
def approximate (bci : Jint) (table : List JvmtiLineNumberEntry) (half startIndex : ℕ) :
    Option (ℕ ⊕ Jint) :=
  if 0 < half then
    table[startIndex + half]?.bind fun entry =>
      let startLocation : Jint := entry.startLocation.setWidth _
      if startLocation.slt bci then approximate bci table (half / 2) (startIndex + half)
      else if bci = startLocation then some (.inr entry.lineNumber)
      else approximate bci table (half / 2) startIndex
  else some (.inl startIndex)

/-- The linear search, lines 49-59, in the rest of the table. -/
def nearest (bci : Jint) (lineNumber : Jint) : List JvmtiLineNumberEntry → Jint
  | [] => lineNumber
  | entry :: rest =>
    if (bci.signExtend _).slt entry.startLocation then lineNumber
    else if bci.signExtend _ = entry.startLocation then entry.lineNumber
    else nearest bci entry.lineNumber rest

/-- `bci2line`, for a table of `entry_count` entries. -/
def bci2line (bci : Jint) (table : List JvmtiLineNumberEntry) : Option Jint :=
  if table.length = 0 then some (-101)
  else (approximate bci table (table.length / 2) 0).map fun
    | .inl startIndex => nearest bci (-102) (table.drop startIndex)
    | .inr lineNumber => lineNumber

/-- The binary search stays within the table. -/
theorem exists_approximate (bci : Jint) {table : List JvmtiLineNumberEntry} {half startIndex : ℕ}
    (h : startIndex + 2 * half ≤ table.length) :
    ∃ found, approximate bci table half startIndex = some found := by
  induction half using Nat.strong_induction_on generalizing startIndex with
  | h half ih =>
    rw [approximate]
    by_cases hhalf : 0 < half
    · have hlt : startIndex + half < table.length := by omega
      rw [if_pos hhalf, List.getElem?_eq_getElem hlt, Option.bind_some]
      dsimp only
      split_ifs
      · exact ih _ (by omega) (by omega)
      · exact ⟨_, rfl⟩
      · exact ih _ (by omega) (by omega)
    · exact ⟨_, if_neg hhalf⟩

theorem bci2line_isSome (bci : Jint) (table : List JvmtiLineNumberEntry) :
    (bci2line bci table).isSome := by
  rw [bci2line]
  split_ifs
  · rfl
  · obtain ⟨found, he⟩ := exists_approximate bci
      (show 0 + 2 * (table.length / 2) ≤ table.length by omega)
    rw [he]
    rfl

/-- `getLineNo`, with the line table of the method, if there is one. -/
def getLineNo (bci : Jint) (table : Option (List JvmtiLineNumberEntry)) : Jint :=
  if bci.sle 0 then bci
  else match table with
    | none => -100
    | some table => (bci2line bci table).get (bci2line_isSome bci table)

end FkProf.LogWriter
