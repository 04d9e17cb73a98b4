import Mathlib.Data.List.Nodup
import Mathlib.Tactic.Common

/-!
# Walks that never come back

A walk goes from one object to the next by a name: the object says how its
successor is called, and the name is looked up.  It stops where there is no
successor, where the lookup fails, and where a name comes back.

Over finitely many names a walk ends, and what it passes is a chain of distinct
objects.
-/

namespace Yca
namespace Core

universe u v

variable {α : Type u} {φ : Type v} [DecidableEq φ]

/-- The objects a walk passes after its start; `none` where the fuel runs out. -/
def walk (name : α → Option φ) (get : φ → Option α) : Nat → List φ → α → Option (List α)
  | 0, _, _ => none
  | fuel + 1, seen, a =>
      match name a with
      | none => some []
      | some x =>
          if x ∈ seen then some []
          else
            match get x with
            | none => some []
            | some b => (walk name get fuel (x :: seen) b).map fun out => b :: out

/-- The names of a finite stock that a walk has not seen. -/
def unseen (names seen : List φ) : List φ :=
  names.filter fun x => decide (x ∉ seen)

/-- A name that is new leaves fewer unseen. -/
theorem length_unseen_cons
    {names seen : List φ}
    {x : φ}
    (hx : x ∈ names)
    (hnew : x ∉ seen) :
    (unseen names (x :: seen)).length < (unseen names seen).length := by
  have hsub : unseen names (x :: seen) = (unseen names seen).filter fun y => decide (y ≠ x) := by
    simp only [unseen, List.filter_filter]
    refine List.filter_congr ?_
    intro y _
    simp [not_or]
  have hmem : x ∈ unseen names seen := by
    simp [unseen, hx, hnew]
  rw [hsub]
  exact List.length_filter_lt_length_iff_exists.mpr ⟨x, hmem, by simp⟩

variable {name : α → Option φ} {get : φ → Option α}

/-- A walk over finitely many names ends. -/
theorem walk_isSome
    {names : List φ}
    (hnames : ∀ a x, name a = some x → x ∈ names)
    (fuel : Nat)
    (seen : List φ)
    (a : α)
    (hfuel : (unseen names seen).length < fuel) :
    (walk name get fuel seen a).isSome = true := by
  induction fuel generalizing seen a with
  | zero => omega
  | succ fuel ih =>
      rw [walk]
      split
      · rfl
      · rename_i x hx
        split_ifs with hseen
        · rfl
        · split
          · rfl
          · have hless := length_unseen_cons (hnames a x hx) hseen
            rw [Option.isSome_map]
            exact ih _ _ (by omega)

/-- More fuel changes nothing. -/
theorem walk_mono
    {fuel fuel' : Nat}
    {seen : List φ}
    {a : α}
    {out : List α}
    (h : walk name get fuel seen a = some out)
    (hle : fuel ≤ fuel') :
    walk name get fuel' seen a = some out := by
  induction fuel generalizing fuel' seen a out with
  | zero => simp [walk] at h
  | succ fuel ih =>
      obtain ⟨more, rfl⟩ : ∃ more, fuel' = more + 1 := ⟨fuel' - 1, by omega⟩
      rw [walk] at h ⊢
      split at h
      · exact h
      · split_ifs at h ⊢ with hseen
        · exact h
        · split at h
          · exact h
          · obtain ⟨rest, hrest, rfl⟩ := Option.map_eq_some_iff.mp h
            rw [ih hrest (by omega)]
            rfl

/-- The objects come after one another by name. -/
theorem walk_isChain
    {fuel : Nat}
    {seen : List φ}
    {a : α}
    {out : List α}
    (h : walk name get fuel seen a = some out) :
    List.IsChain (fun a b => ∃ x, name a = some x ∧ get x = some b) (a :: out) := by
  induction fuel generalizing seen a out with
  | zero => simp [walk] at h
  | succ fuel ih =>
      rw [walk] at h
      split at h
      · rw [← Option.some.inj h]
        exact List.IsChain.singleton a
      · rename_i x hx
        split_ifs at h with hseen
        · rw [← Option.some.inj h]
          exact List.IsChain.singleton a
        · split at h
          · rw [← Option.some.inj h]
            exact List.IsChain.singleton a
          · rename_i b hb
            obtain ⟨rest, hrest, rfl⟩ := Option.map_eq_some_iff.mp h
            exact List.IsChain.cons_cons ⟨x, hx, hb⟩ (ih hrest)

/-- No name is taken twice: what a walk passes is new, passed once, and what its name
stands for. -/
theorem walk_fresh
    {called : α → φ}
    (hcalled : ∀ x b, get x = some b → called b = x)
    {fuel : Nat}
    {seen : List φ}
    {a : α}
    {out : List α}
    (h : walk name get fuel seen a = some out) :
    (out.map called).Nodup ∧ ∀ b ∈ out, called b ∉ seen ∧ get (called b) = some b := by
  induction fuel generalizing seen a out with
  | zero => simp [walk] at h
  | succ fuel ih =>
      rw [walk] at h
      split at h
      · simp [← Option.some.inj h]
      · rename_i x hx
        split_ifs at h with hseen
        · simp [← Option.some.inj h]
        · split at h
          · simp [← Option.some.inj h]
          · rename_i b hb
            obtain ⟨rest, hrest, rfl⟩ := Option.map_eq_some_iff.mp h
            obtain ⟨hnodup, hnew⟩ := ih hrest
            have hx : called b = x := hcalled x b hb
            constructor
            · rw [List.map_cons, List.nodup_cons]
              refine ⟨?_, hnodup⟩
              intro hmem
              obtain ⟨c, hc, heq⟩ := List.mem_map.mp hmem
              refine (hnew c hc).1 ?_
              rw [heq, hx]
              exact List.mem_cons_self
            · intro c hc
              rcases List.mem_cons.mp hc with rfl | hc
              · rw [hx]
                exact ⟨hseen, hb⟩
              · obtain ⟨hunseen, hget⟩ := hnew c hc
                exact ⟨fun hmem => hunseen (List.mem_cons_of_mem _ hmem), hget⟩

end Core
end Yca
