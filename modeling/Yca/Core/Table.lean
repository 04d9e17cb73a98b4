import Mathlib.Data.List.Nodup

/-!
# Tables as lists of rows

The row operations of a relational store on lists: `updateWhere` for
`UPDATE ... WHERE`, `filter` for `DELETE` and append for `INSERT`.

A table has a *unique key* when no two of its rows agree on it, which is what
`PRIMARY KEY` and `UNIQUE` promise.  Each operation keeps a unique key as long
as it does not touch the key or inserts a new one.

`RowsChange` says row by row what became of a table in one step: each row that
is there afterwards was moved or is new, each row that was there before was
moved or is gone.
-/

namespace Yca
namespace Core

universe u v

variable {α : Type u} {κ : Type v}

/-- `UPDATE ... WHERE`: the rows that match are rewritten in place. -/
def updateWhere (p : α → Bool) (f : α → α) (rows : List α) : List α :=
  rows.map fun r => if p r then f r else r

@[simp] theorem updateWhere_nil (p : α → Bool) (f : α → α) :
    updateWhere p f [] = [] := by
  rfl

theorem mem_updateWhere
    {p : α → Bool}
    {f : α → α}
    {rows : List α}
    {r : α} :
    r ∈ updateWhere p f rows ↔
      ∃ r₀ ∈ rows, (p r₀ = true ∧ r = f r₀) ∨ (p r₀ = false ∧ r = r₀) := by
  simp only [updateWhere, List.mem_map]
  constructor
  · rintro ⟨r₀, hr₀, h⟩
    refine ⟨r₀, hr₀, ?_⟩
    by_cases hp : p r₀ = true
    · left
      exact ⟨hp, by simpa [hp] using h.symm⟩
    · right
      have hp' : p r₀ = false := by simpa using hp
      exact ⟨hp', by simpa [hp'] using h.symm⟩
  · rintro ⟨r₀, hr₀, ⟨hp, rfl⟩ | ⟨hp, rfl⟩⟩
    · exact ⟨r₀, hr₀, by simp [hp]⟩
    · exact ⟨r, hr₀, by simp [hp]⟩

/-- Rewriting rows without touching a column leaves the column alone. -/
theorem updateWhere_map
    {p : α → Bool}
    {f : α → α}
    {key : α → κ}
    (hf : ∀ r, key (f r) = key r)
    (rows : List α) :
    (updateWhere p f rows).map key = rows.map key := by
  simp only [updateWhere, List.map_map]
  refine List.map_congr_left ?_
  intro r _
  by_cases hp : p r = true
  · simp [hp, hf]
  · simp [hp]

/-- A row is found again by a column that the rewriting leaves alone. -/
theorem exists_mem_updateWhere
    {p : α → Bool}
    {f : α → α}
    {key : α → κ}
    (hf : ∀ r, key (f r) = key r)
    {rows : List α}
    {r : α}
    (hr : r ∈ rows) :
    ∃ r' ∈ updateWhere p f rows, key r' = key r := by
  have hmem : key r ∈ (updateWhere p f rows).map key := by
    rw [updateWhere_map hf]
    exact List.mem_map_of_mem hr
  exact List.mem_map.mp hmem

/-- The same for the rows that meet a condition the rewriting does not touch. -/
theorem updateWhere_filter_map
    {p q : α → Bool}
    {f : α → α}
    {key : α → κ}
    (hq : ∀ r, q (f r) = q r)
    (hkey : ∀ r, key (f r) = key r)
    (rows : List α) :
    ((updateWhere p f rows).filter q).map key = (rows.filter q).map key := by
  induction rows with
  | nil => rfl
  | cons r rest ih =>
      have hsame : q (if p r then f r else r) = q r ∧ key (if p r then f r else r) = key r := by
        split
        · exact ⟨hq r, hkey r⟩
        · exact ⟨rfl, rfl⟩
      simp only [updateWhere, List.map_cons, List.filter_cons, hsame.1] at ih ⊢
      split
      · simp only [List.map_cons, hsame.2, ih]
      · exact ih

/-- Rewriting and selecting commute where the selection does not look at what is
rewritten. -/
theorem filter_updateWhere
    {p q : α → Bool}
    {f : α → α}
    (hq : ∀ r, q (f r) = q r)
    (rows : List α) :
    (updateWhere p f rows).filter q = updateWhere p f (rows.filter q) := by
  rw [updateWhere, List.filter_map, updateWhere]
  congr 1
  refine List.filter_congr ?_
  intro r _
  by_cases hp : p r = true
  · simp [hp, hq]
  · simp [hp]

/-- The condition matters on the rows only. -/
theorem updateWhere_congr
    {p p' : α → Bool}
    {f : α → α}
    {rows : List α}
    (h : ∀ r ∈ rows, p r = p' r) :
    updateWhere p f rows = updateWhere p' f rows := by
  refine List.map_congr_left ?_
  intro r hr
  rw [h r hr]

/-- Rows that meet another condition are not rewritten. -/
theorem updateWhere_filter
    {p q : α → Bool}
    {f : α → α}
    (hpq : ∀ r, p r = true → q r = false)
    (hq : ∀ r, q (f r) = q r)
    (rows : List α) :
    (updateWhere p f rows).filter q = rows.filter q := by
  induction rows with
  | nil => rfl
  | cons r rest ih =>
      simp only [updateWhere, List.map_cons, List.filter_cons] at ih ⊢
      by_cases hp : p r = true
      · simp only [hp, if_true, hq r, hpq r hp]
        exact ih
      · simp only [hp, ih]
        rfl

/-- A lookup by a column that the rewriting leaves alone. -/
theorem find?_updateWhere
    [DecidableEq κ]
    {p : α → Bool}
    {f : α → α}
    {key : α → κ}
    (hf : ∀ r, key (f r) = key r)
    (k : κ)
    (rows : List α) :
    (updateWhere p f rows).find? (fun r => key r == k) =
      (rows.find? fun r => key r == k).map fun r => if p r then f r else r := by
  rw [updateWhere, List.find?_map]
  congr 2
  funext r
  by_cases hp : p r = true
  · simp [hp, hf]
  · simp [hp]

/-- A lookup with one possible answer finds it. -/
theorem find?_eq_of_only
    {p : α → Bool}
    {rows : List α}
    {r : α}
    (hr : r ∈ rows)
    (hp : p r = true)
    (honly : ∀ x ∈ rows, p x = true → x = r) :
    rows.find? p = some r := by
  cases hfind : rows.find? p with
  | none => exact absurd hp (List.find?_eq_none.mp hfind r hr)
  | some x => rw [honly x (List.mem_of_find?_eq_some hfind) (List.find?_some hfind)]

/-- No two rows agree on the key. -/
def UniqueKey (key : α → κ) (rows : List α) : Prop :=
  (rows.map key).Nodup

instance [DecidableEq κ] (key : α → κ) (rows : List α) : Decidable (UniqueKey key rows) :=
  inferInstanceAs (Decidable (rows.map key).Nodup)

namespace UniqueKey

variable {key : α → κ} {rows : List α}

@[simp] theorem nil :
    UniqueKey key ([] : List α) := by
  simp [UniqueKey]

/-- Rows with the same key are the same row. -/
theorem eq
    (h : UniqueKey key rows)
    {r r' : α}
    (hr : r ∈ rows)
    (hr' : r' ∈ rows)
    (hkey : key r = key r') :
    r = r' :=
  List.inj_on_of_nodup_map h hr hr' hkey

theorem updateWhere
    (h : UniqueKey key rows)
    (p : α → Bool)
    {f : α → α}
    (hf : ∀ r, key (f r) = key r) :
    UniqueKey key (updateWhere p f rows) := by
  rw [UniqueKey, updateWhere_map hf]
  exact h

theorem filter
    (h : UniqueKey key rows)
    (p : α → Bool) :
    UniqueKey key (rows.filter p) :=
  List.Nodup.sublist (List.Sublist.map key List.filter_sublist) h

theorem append
    (h : UniqueKey key rows)
    {r : α}
    (hr : ∀ r' ∈ rows, key r' ≠ key r) :
    UniqueKey key (rows ++ [r]) := by
  simp only [UniqueKey, List.map_append, List.map_cons, List.map_nil]
  refine List.Nodup.append h (by simp) ?_
  intro k hk hk'
  rcases List.mem_map.mp hk with ⟨r', hr', rfl⟩
  exact hr r' hr' (by simpa using hk')

/-- The rows with the key of one row. -/
theorem filter_eq
    [DecidableEq κ]
    (h : UniqueKey key rows)
    {r : α}
    (hr : r ∈ rows) :
    rows.filter (fun x => key x == key r) = [r] := by
  induction rows with
  | nil => simp at hr
  | cons x rest ih =>
      obtain ⟨hx, hrest⟩ := List.nodup_cons.mp h
      rcases List.mem_cons.mp hr with rfl | hr
      · have hnone : rest.filter (fun x => key x == key r) = [] := by
          refine List.filter_eq_nil_iff.mpr ?_
          intro y hy hkey
          exact hx (List.mem_map.mpr ⟨y, hy, by simpa using hkey⟩)
        simp [hnone]
      · have hne : (key x == key r) = false := by
          rw [beq_eq_false_iff_ne]
          intro heq
          exact hx (List.mem_map.mpr ⟨r, hr, heq.symm⟩)
        rw [List.filter_cons, hne]
        exact ih hrest hr

/-- Looking a row up by a unique key finds it. -/
theorem find?_eq
    [DecidableEq κ]
    (h : UniqueKey key rows)
    {r : α}
    (hr : r ∈ rows) :
    rows.find? (fun x => key x == key r) = some r := by
  refine find?_eq_of_only hr (by simp) ?_
  intro x hx hkey
  exact h.eq hx hr (by simpa using hkey)

/-- After a deletion, a lookup by a unique key finds what it found, if that was
kept. -/
theorem find?_filter
    [DecidableEq κ]
    (h : UniqueKey key rows)
    (p : α → Bool)
    (k : κ) :
    (rows.filter p).find? (fun x => key x == k) =
      (rows.find? fun x => key x == k).filter p := by
  induction rows with
  | nil => rfl
  | cons x rest ih =>
      obtain ⟨hx, hrest⟩ := List.nodup_cons.mp h
      by_cases hk : key x = k
      · subst hk
        have hnone : (rest.filter p).find? (fun y => key y == key x) = none := by
          refine List.find?_eq_none.mpr ?_
          intro y hy hkey
          exact hx (List.mem_map.mpr ⟨y, List.mem_of_mem_filter hy, by simpa using hkey⟩)
        by_cases hp : p x = true
        · simp [hp, Option.filter]
        · simp [hp, hnone, Option.filter]
      · have hne : (key x == k) = false := by simpa using hk
        by_cases hp : p x = true
        · simpa [hp, hne] using ih hrest
        · simpa [hp, hne] using ih hrest

end UniqueKey

/-- What a lookup by key finds is a row with that key. -/
theorem mem_of_find?_key
    [DecidableEq κ]
    {key : α → κ}
    {rows : List α}
    {k : κ}
    {r : α}
    (h : rows.find? (fun x => key x == k) = some r) :
    r ∈ rows ∧ key r = k := by
  refine ⟨List.mem_of_find?_eq_some h, ?_⟩
  simpa using List.find?_some h

/-- What one step made of a table whose next free key is `fresh`. -/
structure RowsChange
    (key : α → κ)
    (fresh : κ)
    (Move : α → α → Prop)
    (New Gone : α → Prop)
    (rows rows' : List α) : Prop where
  unique : (∀ r ∈ rows, key r ≠ fresh) → UniqueKey key rows → UniqueKey key rows'
  row : ∀ r' ∈ rows', (∃ r ∈ rows, Move r r') ∨ New r'
  kept : ∀ r ∈ rows, (∃ r' ∈ rows', Move r r') ∨ Gone r

namespace RowsChange

variable
  {key : α → κ} {fresh : κ} {Move : α → α → Prop} {New Gone : α → Prop}
  {rows : List α}

/-- The table was not touched. -/
theorem same
    (hmove : ∀ r ∈ rows, Move r r) :
    RowsChange key fresh Move New Gone rows rows where
  unique _ h := h
  row r hr := Or.inl ⟨r, hr, hmove r hr⟩
  kept r hr := Or.inl ⟨r, hr, hmove r hr⟩

/-- A row was inserted under the free key. -/
theorem insert
    (hmove : ∀ r ∈ rows, Move r r)
    {new : α}
    (hkey : key new = fresh)
    (hnew : New new) :
    RowsChange key fresh Move New Gone rows (rows ++ [new]) where
  unique hfree h := by
    refine h.append ?_
    intro r hr
    rw [hkey]
    exact hfree r hr
  row r' hr' := by
    rcases List.mem_append.mp hr' with hr' | hr'
    · exact Or.inl ⟨r', hr', hmove r' hr'⟩
    · have hr'new : r' = new := by simpa using hr'
      subst hr'new
      exact Or.inr hnew
  kept r hr := Or.inl ⟨r, List.mem_append_left _ hr, hmove r hr⟩

/-- Some rows were rewritten. -/
theorem update
    (hmove : ∀ r ∈ rows, Move r r)
    {p : α → Bool}
    {f : α → α}
    (hf : ∀ r, key (f r) = key r)
    (hupd : ∀ r ∈ rows, p r = true → Move r (f r)) :
    RowsChange key fresh Move New Gone rows (updateWhere p f rows) where
  unique _ h := h.updateWhere p hf
  row r' hr' := by
    rcases mem_updateWhere.mp hr' with ⟨r, hr, ⟨hp, rfl⟩ | ⟨_, rfl⟩⟩
    · exact Or.inl ⟨r, hr, hupd r hr hp⟩
    · exact Or.inl ⟨r', hr, hmove r' hr⟩
  kept r hr := by
    by_cases hp : p r = true
    · exact Or.inl ⟨f r, mem_updateWhere.mpr ⟨r, hr, Or.inl ⟨hp, rfl⟩⟩, hupd r hr hp⟩
    · have hp' : p r = false := by simpa using hp
      exact Or.inl ⟨r, mem_updateWhere.mpr ⟨r, hr, Or.inr ⟨hp', rfl⟩⟩, hmove r hr⟩

/-- Some rows were deleted. -/
theorem delete
    (hmove : ∀ r ∈ rows, Move r r)
    {p : α → Bool}
    (hgone : ∀ r ∈ rows, p r = false → Gone r) :
    RowsChange key fresh Move New Gone rows (rows.filter p) where
  unique _ h := h.filter p
  row r' hr' := by
    have hr := List.mem_of_mem_filter hr'
    exact Or.inl ⟨r', hr, hmove r' hr⟩
  kept r hr := by
    by_cases hp : p r = true
    · exact Or.inl ⟨r, List.mem_filter.mpr ⟨hr, hp⟩, hmove r hr⟩
    · exact Or.inr (hgone r hr (by simpa using hp))

end RowsChange

end Core
end Yca
