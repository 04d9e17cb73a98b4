import Yca.Core.Labels

/-!
# Tables as text

A table is written with one character between the fields of a row and another after
each row, and read back by cutting at them.  It comes back exactly when no field holds
either of the two.
-/

namespace Yca
namespace Core

section Separated

variable {α : Type*} [DecidableEq α]

/-- A row, with its end. -/
def writeRow (tab newline : α) (row : List (List α)) : List α :=
  [tab].intercalate row ++ [newline]

/-- A table. -/
def writeRows (tab newline : α) (rows : List (List (List α))) : List α :=
  rows.flatMap (writeRow tab newline)

/-- The lines of a text; what follows the last line is left out. -/
def linesOf (newline : α) (text : List α) : List (List α) :=
  (text.splitOn newline).dropLast

/-- The fields of the lines of a text. -/
def readRows (tab newline : α) (text : List α) : List (List (List α)) :=
  (linesOf newline text).map fun line => line.splitOn tab

/-- No field holds a separator. -/
def Separable (tab newline : α) (rows : List (List (List α))) : Prop :=
  ∀ row ∈ rows, ∀ field ∈ row, tab ∉ field ∧ newline ∉ field

variable {tab newline : α}

/-- A line is cut off at its end. -/
theorem linesOf_append
    {line : List α}
    (h : newline ∉ line)
    (rest : List α) :
    linesOf newline (line ++ newline :: rest) = line :: linesOf newline rest := by
  rw [linesOf, List.splitOn_append_cons_self_of_not_mem h,
    List.dropLast_cons_of_ne_nil (List.splitOn_ne_nil newline rest)]
  rfl

omit [DecidableEq α] in
/-- What stands in a row is a separator or stands in a field. -/
theorem mem_intercalate
    {row : List (List α)}
    {c : α}
    (h : c ∈ [tab].intercalate row) :
    c = tab ∨ ∃ field ∈ row, c ∈ field := by
  induction row with
  | nil => simp at h
  | cons field rest ih =>
      by_cases hrest : rest = []
      · subst hrest
        exact Or.inr ⟨field, List.mem_cons_self, by simpa using h⟩
      · rw [List.intercalate_cons_of_ne_nil hrest] at h
        rcases List.mem_append.mp h with hbefore | hafter
        · rcases List.mem_append.mp hbefore with hfield | htab
          · exact Or.inr ⟨field, List.mem_cons_self, hfield⟩
          · exact Or.inl (List.mem_singleton.mp htab)
        · rcases ih hafter with htab | ⟨other, hother, hc⟩
          · exact Or.inl htab
          · exact Or.inr ⟨other, List.mem_cons_of_mem _ hother, hc⟩

/-- A table whose fields hold no separator is read back. -/
theorem readRows_writeRows
    (hne : tab ≠ newline)
    {rows : List (List (List α))}
    (hrows : ∀ row ∈ rows, row ≠ [])
    (h : Separable tab newline rows) :
    readRows tab newline (writeRows tab newline rows) = rows := by
  induction rows with
  | nil => simp [readRows, linesOf, writeRows, List.splitOn_nil]
  | cons row rest ih =>
      have hline : newline ∉ [tab].intercalate row := by
        intro hmem
        rcases mem_intercalate hmem with heq | ⟨field, hfield, hc⟩
        · exact hne heq.symm
        · exact (h row List.mem_cons_self field hfield).2 hc
      have hcut : ([tab].intercalate row).splitOn tab = row :=
        List.splitOn_intercalate tab (fun field hfield => (h row List.mem_cons_self field hfield).1)
          (hrows row List.mem_cons_self)
      have hrest := ih (fun other hother => hrows other (List.mem_cons_of_mem _ hother))
        (fun other hother => h other (List.mem_cons_of_mem _ hother))
      rw [readRows] at hrest ⊢
      rw [writeRows, List.flatMap_cons, writeRow, List.append_assoc, List.singleton_append,
        linesOf_append hline, List.map_cons, hcut]
      exact congrArg (row :: ·) hrest

/-- No field that was read holds a separator. -/
theorem separable_readRows (text : List α) :
    Separable tab newline (readRows tab newline text) := by
  intro row hrow field hfield
  obtain ⟨line, hline, rfl⟩ := List.mem_map.mp hrow
  refine ⟨not_mem_of_mem_splitOn hfield, ?_⟩
  intro hmem
  exact not_mem_of_mem_splitOn (List.dropLast_subset _ hline) (mem_of_mem_splitOn hfield hmem)

/-- What stands in a field that was read stands in the text. -/
theorem mem_of_mem_readRows
    {text : List α}
    {row : List (List α)}
    (hrow : row ∈ readRows tab newline text)
    {field : List α}
    (hfield : field ∈ row)
    {c : α}
    (hc : c ∈ field) :
    c ∈ text := by
  obtain ⟨line, hline, rfl⟩ := List.mem_map.mp hrow
  exact mem_of_mem_splitOn (List.dropLast_subset _ hline) (mem_of_mem_splitOn hfield hc)

omit [DecidableEq α] in
/-- What stands in a table stands in a field or is a separator. -/
theorem mem_writeRows
    {rows : List (List (List α))}
    {c : α}
    (h : c ∈ writeRows tab newline rows) :
    c = tab ∨ c = newline ∨ ∃ row ∈ rows, ∃ field ∈ row, c ∈ field := by
  obtain ⟨row, hrow, hmem⟩ := List.mem_flatMap.mp h
  rcases List.mem_append.mp hmem with hline | hend
  · rcases mem_intercalate hline with htab | ⟨field, hfield, hc⟩
    · exact Or.inl htab
    · exact Or.inr (Or.inr ⟨row, hrow, field, hfield, hc⟩)
  · exact Or.inr (Or.inl (List.mem_singleton.mp hend))

end Separated

end Core
end Yca
