import Mathlib.Data.List.Nodup
import Mathlib.Data.String.Basic
import Mathlib.Order.Basic

/-!
# Maps in key order

Finite maps as a library has them that keeps its entries sorted: what a map
holds is a list of entries with increasing keys, walking it follows that order,
and two maps that find the same are equal.

The operations on the bare list of entries come first.  `insertEntry` is one
pass that replaces on a collision, so that the lookup lemmas need no order.
-/

namespace Yca
namespace Core

universe u v w

variable {κ : Type u} {α : Type v} {β : Type w}

section Entries

variable [LinearOrder κ]

/-- Insert an entry in key order; an entry with the same key is replaced. -/
def insertEntry (k : κ) (a : α) : List (κ × α) → List (κ × α)
  | [] => [(k, a)]
  | (k', a') :: rest =>
      if k < k' then (k, a) :: (k', a') :: rest
      else if k = k' then (k, a) :: rest
      else (k', a') :: insertEntry k a rest

theorem mem_insertEntry
    {k : κ}
    {a : α}
    {e : κ × α}
    {l : List (κ × α)}
    (h : e ∈ insertEntry k a l) :
    e = (k, a) ∨ e ∈ l := by
  induction l with
  | nil =>
      left
      simpa [insertEntry] using h
  | cons e' rest ih =>
      obtain ⟨k', a'⟩ := e'
      simp only [insertEntry] at h
      split_ifs at h with hlt heq
      · simpa using h
      · rcases List.mem_cons.mp h with rfl | hrest
        · exact Or.inl rfl
        · exact Or.inr (List.mem_cons_of_mem _ hrest)
      · rcases List.mem_cons.mp h with rfl | hrest
        · exact Or.inr List.mem_cons_self
        · exact (ih hrest).imp id (List.mem_cons_of_mem _)

@[simp] theorem lookup_insertEntry_self
    (k : κ)
    (a : α)
    (l : List (κ × α)) :
    (insertEntry k a l).lookup k = some a := by
  induction l with
  | nil => simp [insertEntry]
  | cons e' rest ih =>
      obtain ⟨k', a'⟩ := e'
      simp only [insertEntry]
      split_ifs with hlt heq
      · simp
      · simp
      · have hbeq : (k == k') = false := by simpa using heq
        simp [List.lookup_cons, hbeq, ih]

@[simp] theorem lookup_insertEntry_of_ne
    {k k' : κ}
    (a : α)
    (hne : k' ≠ k)
    (l : List (κ × α)) :
    (insertEntry k a l).lookup k' = l.lookup k' := by
  have hbeq : (k' == k) = false := by simpa using hne
  induction l with
  | nil => simp [insertEntry, List.lookup_cons, hbeq]
  | cons e' rest ih =>
      obtain ⟨k'', a''⟩ := e'
      simp only [insertEntry]
      split_ifs with hlt heq
      · simp [List.lookup_cons, hbeq]
      · simp [List.lookup_cons, hbeq, ← heq]
      · simp [List.lookup_cons, ih]

/-- Increasing keys. -/
def KeySorted (l : List (κ × α)) : Prop :=
  l.Pairwise fun a b => a.1 < b.1

theorem KeySorted.insertEntry
    {l : List (κ × α)}
    (h : KeySorted l)
    (k : κ)
    (a : α) :
    KeySorted (insertEntry k a l) := by
  induction l with
  | nil => exact List.pairwise_singleton _ _
  | cons e' rest ih =>
      obtain ⟨k', a'⟩ := e'
      obtain ⟨hhead, htail⟩ := List.pairwise_cons.mp h
      simp only [Core.insertEntry]
      split_ifs with hlt heq
      · refine List.pairwise_cons.mpr ⟨?_, h⟩
        intro e he
        rcases List.mem_cons.mp he with rfl | hrest
        · exact hlt
        · exact hlt.trans (hhead e hrest)
      · exact List.pairwise_cons.mpr ⟨fun e he => heq ▸ hhead e he, htail⟩
      · refine List.pairwise_cons.mpr ⟨?_, ih htail⟩
        intro e he
        rcases mem_insertEntry he with rfl | hrest
        · exact lt_of_le_of_ne (not_lt.mp hlt) (Ne.symm heq)
        · exact hhead e hrest

theorem KeySorted.map_snd
    {l : List (κ × α)}
    (h : KeySorted l)
    (f : α → β) :
    KeySorted (l.map fun e => (e.1, f e.2)) := by
  unfold KeySorted
  rw [List.pairwise_map]
  exact h

theorem KeySorted.nodup
    {l : List (κ × α)}
    (h : KeySorted l) :
    (l.map Prod.fst).Nodup :=
  List.pairwise_map.mpr (h.imp ne_of_lt)

theorem lookup_of_mem
    {l : List (κ × α)}
    (hnodup : (l.map Prod.fst).Nodup)
    {k : κ}
    {a : α}
    (hmem : (k, a) ∈ l) :
    l.lookup k = some a := by
  induction l with
  | nil => simp at hmem
  | cons e' rest ih =>
      obtain ⟨k', a'⟩ := e'
      simp only [List.map_cons, List.nodup_cons] at hnodup
      rcases List.mem_cons.mp hmem with heq | hrest
      · obtain ⟨rfl, rfl⟩ := Prod.mk.inj heq
        simp
      · have hne : k ≠ k' := by
          rintro rfl
          exact hnodup.1 (List.mem_map_of_mem hrest)
        have hbeq : (k == k') = false := by simpa using hne
        simp [List.lookup_cons, hbeq, ih hnodup.2 hrest]

theorem mem_of_lookup
    {l : List (κ × α)}
    {k : κ}
    {a : α}
    (h : l.lookup k = some a) :
    (k, a) ∈ l := by
  induction l with
  | nil => simp at h
  | cons e' rest ih =>
      obtain ⟨k', a'⟩ := e'
      rw [List.lookup_cons] at h
      split at h
      · rename_i hbeq
        rw [eq_of_beq hbeq, Option.some.inj h]
        exact List.mem_cons_self
      · exact List.mem_cons_of_mem _ (ih h)

theorem lookup_eq_some_iff
    {l : List (κ × α)}
    (hnodup : (l.map Prod.fst).Nodup)
    {k : κ}
    {a : α} :
    l.lookup k = some a ↔ (k, a) ∈ l :=
  ⟨mem_of_lookup, lookup_of_mem hnodup⟩

theorem lookup_isSome_iff
    {l : List (κ × α)}
    {k : κ} :
    (l.lookup k).isSome = true ↔ k ∈ l.map Prod.fst := by
  induction l with
  | nil => simp
  | cons e' rest ih =>
      obtain ⟨k', a'⟩ := e'
      rw [List.lookup_cons]
      split
      · rename_i hbeq
        simp [eq_of_beq hbeq]
      · rename_i hbeq
        have hne : k ≠ k' := by simpa using hbeq
        simp only [ih, List.map_cons, List.mem_cons]
        constructor
        · exact Or.inr
        · rintro (heq | hmem)
          · exact absurd heq hne
          · exact hmem

/-- Sorted entries are determined by what they find. -/
theorem KeySorted.ext
    {l₁ l₂ : List (κ × α)}
    (h₁ : KeySorted l₁)
    (h₂ : KeySorted l₂)
    (h : ∀ k, l₁.lookup k = l₂.lookup k) :
    l₁ = l₂ := by
  have hmem : ∀ e, e ∈ l₁ ↔ e ∈ l₂ := by
    intro e
    rw [← lookup_eq_some_iff h₁.nodup (k := e.1) (a := e.2), h,
      lookup_eq_some_iff h₂.nodup (k := e.1) (a := e.2)]
  have hperm : l₁.Perm l₂ :=
    (List.perm_ext_iff_of_nodup (List.Nodup.of_map _ h₁.nodup)
      (List.Nodup.of_map _ h₂.nodup)).mpr hmem
  exact hperm.eq_of_pairwise (fun _ _ _ _ hab hba => absurd hab (not_lt.mpr hba.le)) h₁ h₂

end Entries

/-- A map whose entries stand in key order. -/
structure OrderedMap (κ : Type u) (α : Type v) [LinearOrder κ] where
  entries : List (κ × α)
  sorted : KeySorted entries

namespace OrderedMap

variable [LinearOrder κ]

instance [DecidableEq α] : DecidableEq (OrderedMap κ α) := fun m₁ m₂ =>
  decidable_of_iff (m₁.entries = m₂.entries)
    ⟨fun h => by cases m₁; cases m₂; cases h; rfl, fun h => h ▸ rfl⟩

/-- The map without entries. -/
def empty : OrderedMap κ α :=
  ⟨[], List.Pairwise.nil⟩

def find? (m : OrderedMap κ α) (k : κ) : Option α :=
  m.entries.lookup k

def keys (m : OrderedMap κ α) : List κ :=
  m.entries.map Prod.fst

def values (m : OrderedMap κ α) : List α :=
  m.entries.map Prod.snd

/-- Assign a key its value. -/
def insert (m : OrderedMap κ α) (k : κ) (a : α) : OrderedMap κ α :=
  ⟨insertEntry k a m.entries, m.sorted.insertEntry k a⟩

/-- Give a key its value unless it has one. -/
def emplace (m : OrderedMap κ α) (k : κ) (a : α) : OrderedMap κ α :=
  if (m.find? k).isSome then m else m.insert k a

/-- The map with other values under the same keys. -/
def mapValues (f : α → β) (m : OrderedMap κ α) : OrderedMap κ β :=
  ⟨m.entries.map fun e => (e.1, f e.2), m.sorted.map_snd f⟩

/-- A map from entries in any order; the first of several with one key counts. -/
def ofEntries (l : List (κ × α)) : OrderedMap κ α :=
  l.foldl (fun m e => m.emplace e.1 e.2) empty

@[simp] theorem find?_empty (k : κ) :
    (empty : OrderedMap κ α).find? k = none := by
  rfl

@[simp] theorem find?_insert_self
    (m : OrderedMap κ α)
    (k : κ)
    (a : α) :
    (m.insert k a).find? k = some a :=
  lookup_insertEntry_self k a m.entries

@[simp] theorem find?_insert_of_ne
    (m : OrderedMap κ α)
    {k k' : κ}
    (a : α)
    (hne : k' ≠ k) :
    (m.insert k a).find? k' = m.find? k' :=
  lookup_insertEntry_of_ne a hne m.entries

theorem mem_entries_iff
    {m : OrderedMap κ α}
    {k : κ}
    {a : α} :
    (k, a) ∈ m.entries ↔ m.find? k = some a :=
  (lookup_eq_some_iff m.sorted.nodup).symm

/-- A key keeps the value it has. -/
theorem find?_emplace
    (m : OrderedMap κ α)
    (k k' : κ)
    (a : α) :
    (m.emplace k a).find? k' = (m.find? k').or (if k' = k then some a else none) := by
  unfold emplace
  by_cases hk : (m.find? k).isSome = true
  · rw [if_pos hk]
    obtain ⟨a', ha'⟩ := Option.isSome_iff_exists.mp hk
    by_cases heq : k' = k
    · simp [heq, ha']
    · simp [heq]
  · rw [if_neg hk]
    have hnone : m.find? k = none := by simpa using hk
    by_cases heq : k' = k
    · simp [heq, hnone]
    · simp [heq]

theorem find?_foldl_emplace
    (l : List (κ × α))
    (m : OrderedMap κ α)
    (k : κ) :
    (l.foldl (fun m e => m.emplace e.1 e.2) m).find? k = (m.find? k).or (l.lookup k) := by
  induction l generalizing m with
  | nil => simp
  | cons e rest ih =>
      obtain ⟨k', a'⟩ := e
      rw [List.foldl_cons, ih, find?_emplace, Option.or_assoc, List.lookup_cons]
      by_cases heq : k = k'
      · simp [heq]
      · have hbeq : (k == k') = false := by simpa using heq
        simp [heq, hbeq]

/-- Assigning keys one after another, each once. -/
theorem find?_foldl_insert
    {l : List (κ × α)}
    (hnodup : (l.map Prod.fst).Nodup)
    (m : OrderedMap κ α)
    (k : κ) :
    (l.foldl (fun m e => m.insert e.1 e.2) m).find? k = (l.lookup k).or (m.find? k) := by
  induction l generalizing m with
  | nil => simp
  | cons e rest ih =>
      obtain ⟨k', a'⟩ := e
      simp only [List.map_cons, List.nodup_cons] at hnodup
      rw [List.foldl_cons, ih hnodup.2, List.lookup_cons]
      by_cases heq : k = k'
      · subst heq
        have hnone : rest.lookup k = none := by
          rw [← Option.not_isSome_iff_eq_none, lookup_isSome_iff]
          exact hnodup.1
        simp [hnone]
      · have hbeq : (k == k') = false := by simpa using heq
        simp [hbeq, find?_insert_of_ne m a' heq]

@[simp] theorem find?_ofEntries
    (l : List (κ × α))
    (k : κ) :
    (ofEntries l).find? k = l.lookup k := by
  rw [ofEntries, find?_foldl_emplace]
  simp

/-- Maps that find the same are equal. -/
theorem ext_find?
    {m₁ m₂ : OrderedMap κ α}
    (h : ∀ k, m₁.find? k = m₂.find? k) :
    m₁ = m₂ := by
  have hentries : m₁.entries = m₂.entries := m₁.sorted.ext m₂.sorted h
  cases m₁
  cases m₂
  cases hentries
  rfl

theorem ofEntries_entries (m : OrderedMap κ α) :
    ofEntries m.entries = m :=
  ext_find? fun k => find?_ofEntries m.entries k

theorem foldl_insert_entries (m : OrderedMap κ α) :
    m.entries.foldl (fun m e => m.insert e.1 e.2) empty = m := by
  refine ext_find? fun k => ?_
  rw [find?_foldl_insert m.sorted.nodup, find?_empty, Option.or_none]
  rfl

theorem find?_mapValues
    (f : α → β)
    (m : OrderedMap κ α)
    (k : κ) :
    (m.mapValues f).find? k = (m.find? k).map f := by
  unfold find? mapValues
  simp only
  induction m.entries with
  | nil => rfl
  | cons e rest ih =>
      obtain ⟨k', a'⟩ := e
      rw [List.map_cons, List.lookup_cons, List.lookup_cons]
      by_cases hk : k = k'
      · simp [hk]
      · have hbeq : (k == k') = false := by simpa using hk
        simp only [hbeq]
        exact ih

theorem mapValues_eq_self_iff
    {f : α → α}
    {m : OrderedMap κ α} :
    m.mapValues f = m ↔ ∀ a ∈ m.values, f a = a := by
  constructor
  · intro h a ha
    obtain ⟨⟨k, a'⟩, he, rfl⟩ := List.mem_map.mp ha
    have hfind := mem_entries_iff.mp he
    have hmap := find?_mapValues f m k
    rw [h, hfind] at hmap
    exact (Option.some.inj hmap).symm
  · intro h
    refine ext_find? fun k => ?_
    rw [find?_mapValues]
    cases hfind : m.find? k with
    | none => rfl
    | some a =>
        have hmem : a ∈ m.values := List.mem_map.mpr ⟨_, mem_entries_iff.mpr hfind, rfl⟩
        simp [h a hmem]

example :
    ofEntries [("b", 1), ("a", 2), ("b", 3)] = (empty.insert "a" 2).insert "b" 1 := by
  decide

end OrderedMap

end Core
end Yca
