import Mathlib.Data.List.Basic
import Mathlib.Logic.Basic

/-!
# Labelled automata, guarded runs and run rules

An automaton has a set of initial states and one partial, executable step
function.  All nondeterminism sits in the labels, so the labels of a run
determine every state the run visits.

A *guard* restricts the steps a run may take.  The results below are the rules
by which the rest of the development lifts a fact about one step to a fact
about a whole run:

* `Reachable.invariant`: what holds initially and is kept by every step holds
  in every reachable state;
* `Run.so_far`: the same for properties that speak of the labels taken so far;
* `Run.stable`: what one step never destroys survives a whole run;
* `Run.unless`: a property that is lost along a run was given up, at some
  moment of that very run, in a state where giving it up was allowed.
-/

namespace Yca
namespace Core

universe u v

/-- Initial states and an executable, partial, labelled step function. -/
structure Automaton (σ : Type u) (κ : Type v) where
  /-- The states a run may start from. -/
  init : σ → Prop
  /-- One step; `none` when the label is not enabled. -/
  exec : σ → κ → Option σ

/-- A guard says which labels may be taken in which states. -/
abbrev Guard (σ : Type u) (κ : Type v) : Type (max u v) :=
  σ → κ → Prop

/-- The guard that allows every step. -/
def Guard.free {σ : Type u} {κ : Type v} : Guard σ κ :=
  fun _ _ => True

instance {σ : Type u} {κ : Type v} (s : σ) (k : κ) : Decidable (Guard.free s k) :=
  isTrue trivial

namespace Automaton

variable {σ : Type u} {κ : Type v}

/-- A run from `s` to `s'` along the given labels, every step of which
satisfies the guard. -/
inductive Run (M : Automaton σ κ) (G : Guard σ κ) : σ → List κ → σ → Prop
  | nil (s : σ) : Run M G s [] s
  | cons {s s' s'' : σ} {k : κ} {ks : List κ} :
      G s k →
      M.exec s k = some s' →
      Run M G s' ks s'' →
      Run M G s (k :: ks) s''

/-- A state is reachable when a guarded run leads to it from an initial
state. -/
def Reachable (M : Automaton σ κ) (G : Guard σ κ) (s : σ) : Prop :=
  ∃ s₀ ks, M.init s₀ ∧ M.Run G s₀ ks s

/-- Executable form of a run: follows the labels while they are enabled and
the guard admits them. -/
def follow
    (M : Automaton σ κ)
    (G : Guard σ κ)
    [∀ s k, Decidable (G s k)] : σ → List κ → Option σ
  | s, [] => some s
  | s, k :: ks =>
      if G s k then
        match M.exec s k with
        | some s' => follow M G s' ks
        | none => none
      else none

variable {M : Automaton σ κ} {G : Guard σ κ}

/-- What `follow` computes is a run. -/
theorem Run.of_follow
    [∀ s k, Decidable (G s k)]
    {s s' : σ}
    {ks : List κ}
    (h : M.follow G s ks = some s') :
    M.Run G s ks s' := by
  induction ks generalizing s with
  | nil =>
      simp only [follow, Option.some.injEq] at h
      subst h
      exact Run.nil s
  | cons k ks ih =>
      simp only [follow] at h
      split at h
      · rename_i hG
        split at h
        · rename_i t ht
          exact Run.cons hG ht (ih h)
        · simp at h
      · simp at h

/-- A computed check of where the labels lead. -/
theorem Run.exists_of_follow
    [∀ s k, Decidable (G s k)]
    {s : σ}
    {ks : List κ}
    {check : σ → Bool}
    (h : (M.follow G s ks).any check = true) :
    ∃ t, M.Run G s ks t ∧ check t = true := by
  cases hfollow : M.follow G s ks with
  | none => simp [hfollow] at h
  | some t =>
      rw [hfollow] at h
      exact ⟨t, Run.of_follow hfollow, h⟩

/-- Runs compose. -/
theorem Run.append
    {s t u : σ}
    {ks ls : List κ}
    (h₁ : M.Run G s ks t)
    (h₂ : M.Run G t ls u) :
    M.Run G s (ks ++ ls) u := by
  induction h₁ with
  | nil s => simpa using h₂
  | cons hG hx _ ih => exact Run.cons hG hx (ih h₂)

/-- A guard may be weakened. -/
theorem Run.mono
    {G' : Guard σ κ}
    (hGG : ∀ s k, G s k → G' s k)
    {s t : σ}
    {ks : List κ}
    (h : M.Run G s ks t) :
    M.Run G' s ks t := by
  induction h with
  | nil s => exact Run.nil s
  | cons hG hx _ ih => exact Run.cons (hGG _ _ hG) hx ih

/-- What a guarded run reaches is reachable under a weaker guard. -/
theorem Reachable.mono
    {G' : Guard σ κ}
    {s : σ}
    (hs : M.Reachable G s)
    (hGG : ∀ s k, G s k → G' s k) :
    M.Reachable G' s := by
  rcases hs with ⟨s₀, ks, hinit, hrun⟩
  exact ⟨s₀, ks, hinit, hrun.mono hGG⟩

/-- A run from a reachable state ends in a reachable state. -/
theorem Reachable.run
    {s t : σ}
    {ks : List κ}
    (hs : M.Reachable G s)
    (h : M.Run G s ks t) :
    M.Reachable G t := by
  rcases hs with ⟨s₀, ls, hinit, hrun⟩
  exact ⟨s₀, ls ++ ks, hinit, hrun.append h⟩

/-- One guarded step from a reachable state. -/
theorem Reachable.step
    {s t : σ}
    {k : κ}
    (hs : M.Reachable G s)
    (hG : G s k)
    (hx : M.exec s k = some t) :
    M.Reachable G t :=
  hs.run (Run.cons hG hx (Run.nil t))

/-- Initial states are reachable. -/
theorem Reachable.of_init
    {s : σ}
    (hs : M.init s) :
    M.Reachable G s :=
  ⟨s, [], hs, Run.nil s⟩

/-- A run from an initial state reaches its end. -/
theorem Reachable.of_run
    {s t : σ}
    {ks : List κ}
    (hs : M.init s)
    (h : M.Run G s ks t) :
    M.Reachable G t :=
  ⟨s, ks, hs, h⟩

/-- A property kept by every guarded step survives a run. -/
theorem Run.invariant
    {I : σ → Prop}
    (hstep : ∀ s k s', I s → G s k → M.exec s k = some s' → I s')
    {s t : σ}
    {ks : List κ}
    (h : M.Run G s ks t)
    (hs : I s) :
    I t := by
  induction h with
  | nil s => exact hs
  | cons hG hx _ ih => exact ih (hstep _ _ _ hs hG hx)

/-- The invariant rule for reachable states. -/
theorem Reachable.invariant
    {I : σ → Prop}
    (hinit : ∀ s, M.init s → I s)
    (hstep : ∀ s k s', I s → G s k → M.exec s k = some s' → I s')
    {s : σ}
    (hs : M.Reachable G s) :
    I s := by
  rcases hs with ⟨s₀, ks, h₀, hrun⟩
  exact hrun.invariant hstep (hinit s₀ h₀)

/-- The invariant rule for properties of the run so far. -/
theorem Run.so_far
    {P : List κ → σ → Prop}
    {s t : σ}
    {ks : List κ}
    (hstart : P [] s)
    (hstep : ∀ js m k m',
      M.Run G s js m → P js m → G m k → M.exec m k = some m' → P (js ++ [k]) m')
    (h : M.Run G s ks t) :
    P ks t := by
  -- The induction is on what is left to do, after any part of the run.
  have hafter : ∀ {u v : σ} {ls : List κ}, M.Run G u ls v →
      ∀ js, M.Run G s js u → P js u → P (js ++ ls) v := by
    intro u v ls hrun
    induction hrun with
    | nil u =>
        intro js _ hP
        rw [List.append_nil]
        exact hP
    | @cons u u' v k ls hG hx _ ih =>
        intro js hjs hP
        have hjs' := hjs.append (Run.cons hG hx (Run.nil u'))
        have hP' := hstep js u k u' hjs hP hG hx
        simpa using ih (js ++ [k]) hjs' hP'
  exact hafter h [] (Run.nil s) hstart

/-- A property that no step from an invariant state destroys survives a run
from a reachable state. -/
theorem Run.stable
    {I P : σ → Prop}
    (hI : ∀ s, M.Reachable G s → I s)
    (hP : ∀ s k s', I s → I s' → G s k → M.exec s k = some s' → P s → P s')
    {s t : σ}
    {ks : List κ}
    (hs : M.Reachable G s)
    (h : M.Run G s ks t)
    (hPs : P s) :
    P t := by
  induction h with
  | nil s => exact hPs
  | cons hG hx _ ih =>
      have hs' := hs.step hG hx
      exact ih hs' (hP _ _ _ (hI _ hs) (hI _ hs') hG hx hPs)

/-- If a step loses `P` only out of a state with `Q`, then a run that loses `P`
passes through a state with both. -/
theorem Run.unless
    {I P Q : σ → Prop}
    (hI : ∀ s, M.Reachable G s → I s)
    (hP : ∀ s k s', I s → G s k → M.exec s k = some s' → P s → P s' ∨ Q s)
    {s t : σ}
    {ks : List κ}
    (hs : M.Reachable G s)
    (h : M.Run G s ks t)
    (hPs : P s)
    (hPt : ¬ P t) :
    ∃ ks₁ ks₂ m,
      ks = ks₁ ++ ks₂ ∧
      M.Run G s ks₁ m ∧
      M.Run G m ks₂ t ∧
      P m ∧ Q m := by
  induction h with
  | nil s => exact absurd hPs hPt
  | cons hG hx hrun ih =>
      rename_i s s' t k ks
      rcases hP _ _ _ (hI _ hs) hG hx hPs with hPs' | hQ
      · rcases ih (hs.step hG hx) hPs' hPt with ⟨ks₁, ks₂, m, rfl, h₁, h₂, hm⟩
        exact ⟨k :: ks₁, ks₂, m, rfl, Run.cons hG hx h₁, h₂, hm⟩
      · exact ⟨[], k :: ks, s, rfl, Run.nil s, Run.cons hG hx hrun, hPs, hQ⟩

end Automaton
end Core
end Yca
