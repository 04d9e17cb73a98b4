import Mathlib.Data.List.TakeWhile
import Mathlib.Tactic.Common

/-!
# Sequences that stop where an operation fails

Operations are performed in order, each with an outcome of its own.  The first that
fails ends the sequence, and so does running out of outcomes, which is a crash.

What is left behind is what a prefix of the operations does.
-/

namespace Yca
namespace Core

universe u v

variable {σ : Type u} {κ : Type v}

/-- The operations one after another. -/
def foldOps (ops : List (σ → σ)) (s : σ) : σ :=
  ops.foldl (fun s op => op s) s

/-- The operations up to the first that fails; what is left of the outcomes when all of
them are performed. -/
def performAll (ok : κ → Bool) : List (σ → σ) → List κ → σ → σ × Option (List κ)
  | [], ks, s => (s, some ks)
  | _ :: _, [], s => (s, none)
  | op :: ops, k :: ks, s => if ok k then performAll ok ops ks (op s) else (s, none)

/-- How many operations succeed before one fails. -/
def successes (ok : κ → Bool) (ks : List κ) : Nat :=
  (ks.takeWhile ok).length

@[simp] theorem foldOps_nil (s : σ) : foldOps [] s = s :=
  rfl

@[simp] theorem foldOps_cons (op : σ → σ) (ops : List (σ → σ)) (s : σ) :
    foldOps (op :: ops) s = foldOps ops (op s) :=
  rfl

@[simp] theorem foldOps_append (ops ops' : List (σ → σ)) (s : σ) :
    foldOps (ops ++ ops') s = foldOps ops' (foldOps ops s) :=
  List.foldl_append

@[simp] theorem successes_nil (ok : κ → Bool) : successes ok [] = 0 :=
  rfl

theorem successes_cons (ok : κ → Bool) (k : κ) (ks : List κ) :
    successes ok (k :: ks) = if ok k then successes ok ks + 1 else 0 := by
  cases h : ok k <;> simp [successes, h]

/-- What all operations keep, any prefix of them keeps. -/
theorem foldOps_keeps
    {P : σ → Prop}
    {ops : List (σ → σ)}
    (hops : ∀ op ∈ ops, ∀ s, P s → P (op s))
    (n : Nat)
    {s : σ}
    (hs : P s) :
    P (foldOps (ops.take n) s) := by
  induction ops generalizing n s with
  | nil => simpa using hs
  | cons op ops ih =>
      cases n with
      | zero => simpa using hs
      | succ n =>
          simp only [List.take_succ_cons, foldOps_cons]
          exact ih (fun op hop => hops op (List.mem_cons_of_mem _ hop)) n
            (hops op List.mem_cons_self s hs)

/-- What a sequence leaves behind, and what it leaves of the outcomes. -/
theorem performAll_eq
    (ok : κ → Bool)
    (ops : List (σ → σ))
    (ks : List κ)
    (s : σ) :
    performAll ok ops ks s =
      (foldOps (ops.take (successes ok ks)) s,
        if ops.length ≤ successes ok ks then some (ks.drop ops.length) else none) := by
  induction ops generalizing ks s with
  | nil => simp [performAll]
  | cons op ops ih =>
      cases ks with
      | nil => simp [performAll]
      | cons k ks =>
          rw [performAll, successes_cons]
          cases ok k with
          | false => simp
          | true => simp [ih]

end Core
end Yca
