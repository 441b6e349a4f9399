import FkProf.LogWriter.Lines
import Mathlib.Data.Int.Lemmas
import Mathlib.Order.Basic

/-!
# Searching a line table

`bci2line` (`log_writer.cpp:25-60`) looks for the last entry that starts at the bytecode or
before it. Its binary search only ever moves to the right, by halves of the table, and the
linear search goes on from there. The linear search compares 64-bit locations, but the
binary search first cuts them to the 32 bits of a `jint`.

* `lastUpTo`: the last element of a sorted list that is at most a bound, and how to find
  it from a place before it;
* `nearest_eq`: the linear search finds it;
* `approximate_reaches`, `approximate_strays`: where the binary search stops;
* `bci2line_iff`: the line is the right one exactly if no entry that the binary search looks
  at misleads it, and none does when the locations fit into a `jint`
  (`not_misleads_of_fits`).
-/

namespace FkProf.LogWriter

/-! ## The last element up to a bound -/

section LastUpTo

variable {α β : Type*} (f : α → ℤ) (b : ℤ)

/-- The last element of a list whose value is at most the bound. -/
def lastUpTo (l : List α) : Option α := (l.filter fun x => f x ≤ b).getLast?

variable {f b} {l : List α} {x : α} {i : ℕ}

theorem lastUpTo_map (g : β → α) (l : List β) :
    lastUpTo f b (l.map g) = (lastUpTo (f ∘ g) b l).map g := by
  rw [lastUpTo, List.filter_map, List.getLast?_map]
  rfl

theorem lastUpTo_append (l l' : List α) :
    lastUpTo f b (l ++ l') = (lastUpTo f b l').or (lastUpTo f b l) := by
  rw [lastUpTo, List.filter_append, List.getLast?_append]
  rfl

theorem lastUpTo_eq_none : lastUpTo f b l = none ↔ ∀ x ∈ l, b < f x := by
  rw [lastUpTo, List.getLast?_eq_none_iff, List.filter_eq_nil_iff]
  simp only [decide_eq_true_eq, not_le]

theorem lastUpTo_cons : lastUpTo f b (x :: l) =
    (lastUpTo f b l).or (if f x ≤ b then some x else none) := by
  rw [← List.singleton_append, lastUpTo_append]
  congr 1
  rw [lastUpTo]
  split_ifs with h <;> simp [h]

theorem lastUpTo_mem (h : lastUpTo f b l = some x) : x ∈ l :=
  (List.mem_filter.1 (List.mem_of_getLast? h)).1

theorem lastUpTo_le (h : lastUpTo f b l = some x) : f x ≤ b :=
  of_decide_eq_true (List.mem_filter.1 (List.mem_of_getLast? h)).2

/-- Nothing at or before a place is missed if the element there is at most the bound. -/
theorem lastUpTo_drop (h : i = 0 ∨ lastUpTo f b l = none ∨ ∃ x, l[i]? = some x ∧ f x ≤ b) :
    lastUpTo f b (l.drop i) = lastUpTo f b l := by
  rcases h with rfl | hnone | ⟨x, hx, hle⟩
  · rfl
  · rw [hnone, lastUpTo_eq_none]
    exact fun y hy => lastUpTo_eq_none.1 hnone y (List.mem_of_mem_drop hy)
  · have hsome : lastUpTo f b (l.drop i) ≠ none := by
      intro hnone
      have hmem : x ∈ l.drop i := List.mem_of_getElem? (i := 0) (by rw [List.getElem?_drop]; exact hx)
      exact absurd hle (not_le.2 (lastUpTo_eq_none.1 hnone x hmem))
    conv_rhs => rw [← List.take_append_drop i l, lastUpTo_append]
    obtain ⟨y, hy⟩ := Option.ne_none_iff_exists'.1 hsome
    rw [hy, Option.some_or]

/-- In a sorted list, an element of the value of the bound is the last one. -/
theorem lastUpTo_of_eq (hl : l.Pairwise fun x y => f x < f y) (hx : x ∈ l) (he : f x = b) :
    lastUpTo f b l = some x := by
  obtain ⟨l₁, l₂, rfl⟩ := List.append_of_mem hx
  have hafter : lastUpTo f b l₂ = none := by
    rw [lastUpTo_eq_none, ← he]
    exact (List.pairwise_cons.1 (List.pairwise_append.1 hl).2.1).1
  rw [lastUpTo_append, lastUpTo_cons, hafter, if_pos he.le]
  rfl

/-- The values in a sorted list are different. -/
theorem eq_of_value_eq {y : α} (hl : l.Pairwise fun x y => f x < f y) (hx : x ∈ l) (hy : y ∈ l)
    (he : f x = f y) : x = y :=
  Option.some.inj ((lastUpTo_of_eq hl hx he).symm.trans (lastUpTo_of_eq hl hy rfl))

end LastUpTo

/-! ## The line of a bytecode -/

/-- Where an entry starts. -/
def JvmtiLineNumberEntry.start (entry : JvmtiLineNumberEntry) : ℤ := entry.startLocation.toInt

/-- The number of the last entry that starts at the bytecode or before it. -/
def lineOf (bci : Jint) (table : List JvmtiLineNumberEntry) : Jint :=
  if table = [] then -101
  else match lastUpTo JvmtiLineNumberEntry.start bci.toInt table with
    | none => -102
    | some entry => entry.lineNumber

/-- The last location at the bytecode or before it. -/
def lastStarted (bci : Jint) (locations : List Jlong) : Option Jlong :=
  lastUpTo BitVec.toInt bci.toInt locations

/-- The locations that the binary search looks at. -/
def probed (bci : Jint) (locations : List Jlong) (half startIndex : ℕ) : List Jlong :=
  if 0 < half then
    match locations[startIndex + half]? with
    | none => []
    | some location =>
      let startLocation : Jint := location.setWidth _
      location ::
        if startLocation.slt bci then probed bci locations (half / 2) (startIndex + half)
        else if bci = startLocation then []
        else probed bci locations (half / 2) startIndex
  else []

/-- Cut to 32 bits, the location is the bytecode, but it is not the last one up to it; or it
    is before the bytecode then, but in fact after it, and after another one up to it. -/
def Misleads (bci : Jint) (locations : List Jlong) (location : Jlong) : Prop :=
  let startLocation : Jint := location.setWidth _
  bci = startLocation ∧ lastStarted bci locations ≠ some location ∨
    startLocation.slt bci ∧ bci.toInt < location.toInt ∧ lastStarted bci locations ≠ none

instance (bci : Jint) (locations : List Jlong) (location : Jlong) :
    Decidable (Misleads bci locations location) :=
  inferInstanceAs (Decidable (_ ∧ _ ∨ _ ∧ _ ∧ _))

/-- The locations of a table. -/
def locationsOf (table : List JvmtiLineNumberEntry) : List Jlong :=
  table.map JvmtiLineNumberEntry.startLocation

section Search

variable {bci : Jint} {table : List JvmtiLineNumberEntry} {half startIndex : ℕ}
  {entry : JvmtiLineNumberEntry} {lineNumber : Jint}

theorem lastStarted_locationsOf (bci : Jint) (table : List JvmtiLineNumberEntry) :
    lastStarted bci (locationsOf table) =
      (lastUpTo JvmtiLineNumberEntry.start bci.toInt table).map
        JvmtiLineNumberEntry.startLocation :=
  lastUpTo_map _ table

theorem bci_slt_iff (location : Jlong) :
    (bci.signExtend (8 * 8)).slt location ↔ bci.toInt < location.toInt := by
  rw [BitVec.slt_iff_toInt_lt, BitVec.toInt_signExtend_of_le (by decide)]

theorem bci_eq_iff (location : Jlong) :
    bci.signExtend (8 * 8) = location ↔ bci.toInt = location.toInt := by
  rw [← BitVec.toInt_inj, BitVec.toInt_signExtend_of_le (by decide)]

/-- The linear search comes to the last entry up to the bytecode. -/
theorem nearest_eq (hs : table.Pairwise fun x y => x.start < y.start) :
    nearest bci lineNumber table =
      ((lastUpTo JvmtiLineNumberEntry.start bci.toInt table).map
        JvmtiLineNumberEntry.lineNumber).getD lineNumber := by
  induction table generalizing lineNumber with
  | nil => rfl
  | cons entry rest ih =>
    obtain ⟨hafter, hs⟩ := List.pairwise_cons.1 hs
    simp only [nearest, bci_slt_iff, bci_eq_iff]
    have hstart : entry.startLocation.toInt = entry.start := rfl
    rw [hstart, lastUpTo_cons]
    by_cases hlt : bci.toInt < entry.start
    · have hnone : lastUpTo JvmtiLineNumberEntry.start bci.toInt rest = none :=
        lastUpTo_eq_none.2 fun e he => hlt.trans (hafter e he)
      rw [if_pos hlt, hnone, if_neg (not_le.2 hlt)]
      rfl
    · rw [if_neg hlt, if_pos (not_lt.1 hlt)]
      by_cases heq : bci.toInt = entry.start
      · have hnone : lastUpTo JvmtiLineNumberEntry.start bci.toInt rest = none :=
          lastUpTo_eq_none.2 fun e he => heq ▸ hafter e he
        rw [if_pos heq, hnone]
        rfl
      · rw [if_neg heq, ih hs]
        cases lastUpTo JvmtiLineNumberEntry.start bci.toInt rest <;> rfl

/-! ## The binary search -/

/-- The linear search may begin here. -/
def Reaches (bci : Jint) (table : List JvmtiLineNumberEntry) (i : ℕ) : Prop :=
  i = 0 ∨ lastUpTo JvmtiLineNumberEntry.start bci.toInt table = none ∨
    ∃ entry, table[i]? = some entry ∧ entry.start ≤ bci.toInt

/-- One turn of the loop. -/
theorem approximate_probe (hhalf : 0 < half) (he : table[startIndex + half]? = some entry) :
    approximate bci table half startIndex =
      if (entry.startLocation.setWidth (8 * 4)).slt bci then
        approximate bci table (half / 2) (startIndex + half)
      else if bci = entry.startLocation.setWidth (8 * 4) then some (.inr entry.lineNumber)
      else approximate bci table (half / 2) startIndex := by
  rw [approximate, if_pos hhalf, he, Option.bind_some]

theorem probed_probe (hhalf : 0 < half) (he : table[startIndex + half]? = some entry) :
    probed bci (locationsOf table) half startIndex =
      entry.startLocation ::
        if (entry.startLocation.setWidth (8 * 4)).slt bci then
          probed bci (locationsOf table) (half / 2) (startIndex + half)
        else if bci = entry.startLocation.setWidth (8 * 4) then []
        else probed bci (locationsOf table) (half / 2) startIndex := by
  rw [probed, if_pos hhalf, locationsOf, List.getElem?_map, he]
  rfl

/-- Unless an entry misleads it, the binary search stops at a place from which the linear one
    may begin, or at the entry itself. -/
theorem approximate_reaches (hs : table.Pairwise fun x y => x.start < y.start)
    (hlen : startIndex + 2 * half ≤ table.length) (hreach : Reaches bci table startIndex)
    (hok : ∀ l ∈ probed bci (locationsOf table) half startIndex,
      ¬Misleads bci (locationsOf table) l) :
    (∃ i, approximate bci table half startIndex = some (.inl i) ∧ Reaches bci table i) ∨
      ∃ entry, approximate bci table half startIndex = some (.inr entry.lineNumber) ∧
        lastUpTo JvmtiLineNumberEntry.start bci.toInt table = some entry := by
  induction half using Nat.strong_induction_on generalizing startIndex with
  | h half ih =>
    by_cases hhalf : 0 < half
    · have hlt : startIndex + half < table.length := by omega
      have he := List.getElem?_eq_getElem hlt
      set entry := table[startIndex + half]
      rw [probed_probe hhalf he, List.forall_mem_cons] at hok
      obtain ⟨hmis, hok⟩ := hok
      rw [Misleads, lastStarted_locationsOf, not_or] at hmis
      rw [approximate_probe hhalf he]
      by_cases hslt : (entry.startLocation.setWidth (8 * 4)).slt bci
      · rw [if_pos hslt] at hok ⊢
        refine ih _ (by omega) (by omega) (.inr ?_) hok
        -- The search moves to the entry, if it starts in time, or if none does.
        by_cases hafter : bci.toInt < entry.start
        · refine .inl (by_contra fun hnone => hmis.2 ⟨hslt, hafter, ?_⟩)
          rwa [ne_eq, Option.map_eq_none_iff]
        · exact .inr ⟨entry, he, not_lt.1 hafter⟩
      · rw [if_neg hslt] at hok ⊢
        by_cases heq : bci = entry.startLocation.setWidth (8 * 4)
        · rw [if_pos heq]
          have hlast := not_not.1 (not_and.1 hmis.1 heq)
          obtain ⟨e, he', hloc⟩ := Option.map_eq_some_iff.1 hlast
          have hmem := lastUpTo_mem he'
          rw [eq_of_value_eq hs hmem (List.getElem_mem hlt) (congrArg BitVec.toInt hloc)] at he'
          exact .inr ⟨entry, rfl, he'⟩
        · rw [if_neg heq] at hok ⊢
          exact ih _ (by omega) (by omega) hreach hok
    · refine .inl ⟨startIndex, ?_, hreach⟩
      rw [approximate, if_neg hhalf]

/-- The binary search has stopped at an entry after the bytecode, though there are others, or
    at an entry that is not the last one up to the bytecode. -/
def Strays (bci : Jint) (table : List JvmtiLineNumberEntry) : ℕ ⊕ Jint → Prop
  | .inl i => (∃ entry, table[i]? = some entry ∧ bci.toInt < entry.start) ∧
      lastUpTo JvmtiLineNumberEntry.start bci.toInt table ≠ none
  | .inr lineNumber => ∃ entry ∈ table, entry.lineNumber = lineNumber ∧
      lastUpTo JvmtiLineNumberEntry.start bci.toInt table ≠ some entry

/-- Once it is past the bytecode, the binary search does not come back. -/
theorem approximate_past (hs : table.Pairwise fun x y => x.start < y.start)
    (hlen : startIndex + 2 * half ≤ table.length) (he : table[startIndex]? = some entry)
    (hpast : bci.toInt < entry.start)
    (hsome : lastUpTo JvmtiLineNumberEntry.start bci.toInt table ≠ none) :
    ∃ found, approximate bci table half startIndex = some found ∧ Strays bci table found := by
  induction half using Nat.strong_induction_on generalizing startIndex entry with
  | h half ih =>
    by_cases hhalf : 0 < half
    · have hlt : startIndex + half < table.length := by omega
      have hprobe := List.getElem?_eq_getElem hlt
      obtain ⟨hstart, rfl⟩ := List.getElem?_eq_some_iff.1 he
      have hafter := List.pairwise_iff_getElem.1 hs _ _ hstart hlt (by omega)
      rw [approximate_probe hhalf hprobe]
      split_ifs
      · exact ih _ (by omega) (by omega) hprobe (hpast.trans hafter)
      · refine ⟨_, rfl, _, List.getElem_mem hlt, rfl, fun hlast => ?_⟩
        exact absurd (lastUpTo_le hlast) (not_le.2 (hpast.trans hafter))
      · exact ih _ (by omega) (by omega) he hpast
    · exact ⟨.inl startIndex, by rw [approximate, if_neg hhalf], ⟨entry, he, hpast⟩, hsome⟩

/-- An entry that misleads the binary search leads it astray. -/
theorem approximate_strays (hs : table.Pairwise fun x y => x.start < y.start)
    (hlen : startIndex + 2 * half ≤ table.length) {l : Jlong}
    (hl : l ∈ probed bci (locationsOf table) half startIndex)
    (hmis : Misleads bci (locationsOf table) l) :
    ∃ found, approximate bci table half startIndex = some found ∧ Strays bci table found := by
  induction half using Nat.strong_induction_on generalizing startIndex with
  | h half ih =>
    by_cases hhalf : 0 < half
    · have hlt : startIndex + half < table.length := by omega
      have he := List.getElem?_eq_getElem hlt
      set entry := table[startIndex + half]
      rw [probed_probe hhalf he, List.mem_cons] at hl
      rw [approximate_probe hhalf he]
      by_cases hslt : (entry.startLocation.setWidth (8 * 4)).slt bci
      · rw [if_pos hslt] at hl ⊢
        rcases hl with rfl | hl
        · -- It cannot be taken for the bytecode.
          rcases hmis with ⟨heq, -⟩ | ⟨-, hpast, hsome⟩
          · rw [heq, BitVec.slt_iff_toInt_lt] at hslt
            exact absurd hslt (lt_irrefl _)
          · refine approximate_past hs (by omega) he hpast fun hnone => hsome ?_
            rw [lastStarted_locationsOf, hnone]
            rfl
        · exact ih _ (by omega) (by omega) hl
      · rw [if_neg hslt] at hl ⊢
        by_cases heq : bci = entry.startLocation.setWidth (8 * 4)
        · rw [if_pos heq] at hl ⊢
          obtain rfl := List.mem_singleton.1 (List.mem_cons.2 hl)
          rcases hmis with ⟨-, hlast⟩ | ⟨hslt', -⟩
          · refine ⟨_, rfl, entry, List.getElem_mem hlt, rfl, fun he' => hlast ?_⟩
            rw [lastStarted_locationsOf, he']
            rfl
          · exact absurd hslt' hslt
        · rw [if_neg heq] at hl ⊢
          rcases hl with rfl | hl
          · rcases hmis with ⟨heq', -⟩ | ⟨hslt', -⟩
            · exact absurd heq' heq
            · exact absurd hslt' hslt
          · exact ih _ (by omega) (by omega) hl
    · rw [probed, if_neg hhalf] at hl
      exact absurd hl List.not_mem_nil

/-! ## The line -/

/-- If no entry misleads the search, the line is the right one. -/
theorem bci2line_eq (hs : table.Pairwise fun x y => x.start < y.start)
    (hok : ∀ l ∈ probed bci (locationsOf table) (table.length / 2) 0,
      ¬Misleads bci (locationsOf table) l) : bci2line bci table = some (lineOf bci table) := by
  rw [bci2line, lineOf]
  by_cases hempty : table = []
  · rw [if_pos hempty, if_pos (by rw [hempty]; rfl)]
  · rw [if_neg hempty, if_neg (by rwa [List.length_eq_zero_iff])]
    rcases approximate_reaches hs (by omega) (.inl rfl) hok with ⟨i, hi, hreach⟩ | ⟨e, he, hlast⟩
    · rw [hi, Option.map_some]
      dsimp only
      rw [nearest_eq (hs.drop), lastUpTo_drop hreach]
      cases lastUpTo JvmtiLineNumberEntry.start bci.toInt table <;> rfl
    · rw [he, hlast]
      rfl

/-- The entries of some locations, of which one has a line of its own. -/
def tableOf (own : Option Jlong) (locations : List Jlong) : List JvmtiLineNumberEntry :=
  locations.map fun l => ⟨l, if own = some l then 1 else 2⟩

theorem locationsOf_tableOf (own : Option Jlong) (locations : List Jlong) :
    locationsOf (tableOf own locations) = locations := by
  rw [locationsOf, tableOf, List.map_map]
  exact List.map_id _

theorem pairwise_tableOf {own : Option Jlong} {locations : List Jlong} :
    (tableOf own locations).Pairwise (fun x y => x.start < y.start) ↔
      locations.Pairwise fun x y => x.toInt < y.toInt :=
  List.pairwise_map

theorem lineNumber_tableOf {own : Option Jlong} {locations : List Jlong}
    (he : entry ∈ tableOf own locations) :
    entry.lineNumber = if own = some entry.startLocation then 1 else 2 := by
  obtain ⟨l, -, rfl⟩ := List.mem_map.1 he
  rfl

theorem eq_of_mem_tableOf {own : Option Jlong} {locations : List Jlong}
    {e e' : JvmtiLineNumberEntry} (he : e ∈ tableOf own locations)
    (he' : e' ∈ tableOf own locations) (hloc : e.startLocation = e'.startLocation) : e = e' := by
  obtain ⟨l, -, rfl⟩ := List.mem_map.1 he
  obtain ⟨l', -, rfl⟩ := List.mem_map.1 he'
  obtain rfl : l = l' := hloc
  rfl

/-- The right line is the one of its own, if there is one. -/
theorem lineOf_tableOf {locations : List Jlong} (hne : locations ≠ []) :
    lineOf bci (tableOf (lastStarted bci locations) locations) =
      if lastStarted bci locations = none then -102 else 1 := by
  have hlast := lastStarted_locationsOf bci (tableOf (lastStarted bci locations) locations)
  rw [locationsOf_tableOf] at hlast
  rw [lineOf, if_neg (by rwa [tableOf, List.map_eq_nil_iff])]
  cases h : lastUpTo JvmtiLineNumberEntry.start bci.toInt
      (tableOf (lastStarted bci locations) locations) with
  | none =>
    rw [h, Option.map_none] at hlast
    rw [if_pos hlast]
  | some e =>
    rw [h, Option.map_some] at hlast
    dsimp only
    rw [lineNumber_tableOf (lastUpTo_mem h), if_pos hlast, if_neg]
    rw [hlast]
    exact Option.some_ne_none _

/-- A search that goes astray gives another line, if the right one has a line of its own. -/
theorem bci2line_ne {locations : List Jlong} (hne : locations ≠ []) {found : ℕ ⊕ Jint}
    (hfound : approximate bci (tableOf (lastStarted bci locations) locations)
      (locations.length / 2) 0 = some found)
    (hstray : Strays bci (tableOf (lastStarted bci locations) locations) found) :
    bci2line bci (tableOf (lastStarted bci locations) locations) ≠
      some (lineOf bci (tableOf (lastStarted bci locations) locations)) := by
  have hlast := lastStarted_locationsOf bci (tableOf (lastStarted bci locations) locations)
  rw [locationsOf_tableOf] at hlast
  have hlength : (tableOf (lastStarted bci locations) locations).length = locations.length := by
    rw [tableOf, List.length_map]
  rw [lineOf_tableOf hne, bci2line, hlength, if_neg (by rwa [List.length_eq_zero_iff]), hfound,
    Option.map_some, ne_eq, Option.some_inj]
  rcases found with i | lineNumber
  · -- The linear search begins after the bytecode.
    obtain ⟨⟨e, he, hpast⟩, hsome⟩ := hstray
    obtain ⟨hi, rfl⟩ := List.getElem?_eq_some_iff.1 he
    dsimp only
    rw [List.drop_eq_getElem_cons hi, nearest, if_pos ((bci_slt_iff _).2 hpast), if_neg]
    · decide
    · rwa [hlast, Option.map_eq_none_iff]
  · obtain ⟨e, he, rfl, hother⟩ := hstray
    dsimp only
    rw [lineNumber_tableOf he, if_neg]
    · split_ifs <;> decide
    · -- It would be the last entry up to the bytecode.
      intro hown
      obtain ⟨e', he', hloc⟩ := Option.map_eq_some_iff.1 (hlast.symm.trans hown)
      exact hother (eq_of_mem_tableOf (lastUpTo_mem he') he hloc ▸ he')

/-- For every bytecode and all locations in order: whatever the lines are, the search stays in
    the table and finds the line of the last entry up to the bytecode, or the number for none
    or for an empty table, if and only if no entry that the binary search looks at misleads
    it. -/
theorem bci2line_iff (bci : Jint) {locations : List Jlong}
    (hs : locations.Pairwise fun x y => x.toInt < y.toInt) :
    (∀ table, locationsOf table = locations → bci2line bci table = some (lineOf bci table)) ↔
      ∀ l ∈ probed bci locations (locations.length / 2) 0, ¬Misleads bci locations l := by
  constructor
  · intro hall l hl hmis
    set table := tableOf (lastStarted bci locations) locations with htable
    have hlocations : locationsOf table = locations := locationsOf_tableOf ..
    have hlength : table.length = locations.length := by rw [htable, tableOf, List.length_map]
    obtain ⟨found, hfound, hstray⟩ := approximate_strays (pairwise_tableOf.2 hs)
      (show 0 + 2 * (locations.length / 2) ≤ table.length by omega)
      (by rwa [hlocations]) (by rwa [hlocations])
    refine bci2line_ne ?_ hfound hstray (hall table hlocations)
    rintro rfl
    rw [List.length_nil, probed, if_neg (by decide)] at hl
    exact List.not_mem_nil hl
  · rintro hok table rfl
    refine bci2line_eq ((List.pairwise_map (f := JvmtiLineNumberEntry.startLocation)).1 hs) ?_
    rwa [locationsOf, List.length_map] at hok

/-- Locations that are `jint`s, as the indices of bytecodes are, mislead no search. -/
theorem not_misleads_of_fits {locations : List Jlong}
    (hs : locations.Pairwise fun x y => x.toInt < y.toInt) {l : Jlong} (hl : l ∈ locations)
    {x : Jint} (hfit : l = x.signExtend (8 * 8)) : ¬Misleads bci locations l := by
  have hcut : l.setWidth (8 * 4) = x := by
    refine BitVec.eq_of_getLsbD_eq fun i hi => ?_
    rw [hfit, BitVec.getLsbD_setWidth, BitVec.getLsbD_signExtend]
    simp [hi, show i < 8 * 8 by omega]
  have hint : l.toInt = x.toInt := by rw [hfit, BitVec.toInt_signExtend_of_le (by decide)]
  rw [Misleads, hcut]
  rintro (⟨rfl, hlast⟩ | ⟨hslt, hpast, -⟩)
  · exact hlast (lastUpTo_of_eq hs hl hint)
  · rw [BitVec.slt_iff_toInt_lt] at hslt
    omega

theorem bci2line_iff_three :
    (∀ table, locationsOf table = [0, 5, 9] → bci2line 7 table = some (lineOf 7 table)) ↔
      ∀ l ∈ probed 7 [0, 5, 9] 1 0, ¬Misleads 7 [0, 5, 9] l :=
  bci2line_iff 7 (by decide)

/-- A location of more than 32 bits, cut to zero, is taken for one before the bytecode. -/
theorem exists_misled : ¬∀ (bci : Jint) (table : List JvmtiLineNumberEntry),
    table.Pairwise (fun x y => x.start < y.start) →
      bci2line bci table = some (lineOf bci table) := by
  intro h
  have hline := h 5 [⟨0, 1⟩, ⟨0x100000000, 2⟩] (by decide)
  revert hline
  decide +kernel

end Search

end FkProf.LogWriter
