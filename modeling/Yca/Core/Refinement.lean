import Yca.Core.History
import Yca.Core.Calls

/-!
# Refinement

One automaton refines another along a map of states when each of its steps is a
run of the other, possibly of no step at all.  Then every run is a run of the
other, and what holds in every reachable state of the other holds of the images
of its own.

The first instance is forgetting: processes that carry more with them than the
rules for their steps look at.
-/

namespace Yca
namespace Core

universe u v w x y z

section Automata

variable {σ : Type u} {κ : Type v} {τ : Type w} {μ : Type x}

/-- The guarded runs of `M` are guarded runs of `N`, seen through `f`. -/
structure Refinement
    (M : Automaton σ κ)
    (G : Guard σ κ)
    (N : Automaton τ μ)
    (H : Guard τ μ)
    (f : σ → τ) : Prop where
  init : ∀ s, M.init s → N.init (f s)
  step : ∀ s k s', M.Reachable G s → G s k → M.exec s k = some s' →
    ∃ ls, N.Run H (f s) ls (f s')

namespace Refinement

variable
  {M : Automaton σ κ} {G : Guard σ κ} {N : Automaton τ μ} {H : Guard τ μ} {f : σ → τ}

/-- Runs are mapped to runs. -/
theorem run
    (hf : Refinement M G N H f)
    {s t : σ}
    {ks : List κ}
    (hs : M.Reachable G s)
    (hrun : M.Run G s ks t) :
    ∃ ls, N.Run H (f s) ls (f t) := by
  induction hrun with
  | nil s => exact ⟨[], Automaton.Run.nil _⟩
  | cons hG hx _ ih =>
      obtain ⟨ls, hfirst⟩ := hf.step _ _ _ hs hG hx
      obtain ⟨ls', hrest⟩ := ih (hs.step hG hx)
      exact ⟨ls ++ ls', hfirst.append hrest⟩

theorem reachable
    (hf : Refinement M G N H f)
    {s : σ}
    (hs : M.Reachable G s) :
    N.Reachable H (f s) := by
  obtain ⟨s₀, ks, hinit, hrun⟩ := hs
  obtain ⟨ls, hls⟩ := hf.run (Automaton.Reachable.of_init hinit) hrun
  exact ⟨f s₀, ls, hf.init s₀ hinit, hls⟩

end Refinement

end Automata

section Programs

variable
  {σ : Type u} {π : Type v} {π' : Type w} {κ : Type x} {ρ : Type y} {ε : Type z}

/-- A world seen with less of each process. -/
def World.map (f : π → π') (w : World σ π) : World σ π' :=
  ⟨w.shared, fun p => (w.procs p).map f⟩

@[simp] theorem World.map_shared (f : π → π') (w : World σ π) :
    (w.map f).shared = w.shared := by
  rfl

@[simp] theorem World.map_procs (f : π → π') (w : World σ π) (p : Pid) :
    (w.map f).procs p = (w.procs p).map f := by
  rfl

theorem World.map_put
    (f : π → π')
    (w : World σ π)
    (s : σ)
    (p : Pid)
    (l : Option π) :
    (w.put s p l).map f = (w.map f).put s p (l.map f) := by
  unfold World.map World.put
  congr 1
  funext q
  by_cases hq : q = p
  · subst hq
    simp
  · simp [hq]

/-- A guard that looks at less of each process. -/
def Guard.through
    (f : π → π')
    (G : Guard (World σ π') (Action κ ρ ε)) : Guard (World σ π) (Action κ ρ ε) :=
  fun w a => G (w.map f) a

instance
    (f : π → π')
    (G : Guard (World σ π') (Action κ ρ ε))
    [∀ w a, Decidable (G w a)]
    (w : World σ π)
    (a : Action κ ρ ε) :
    Decidable (Guard.through f G w a) :=
  inferInstanceAs (Decidable (G (w.map f) a))

/-- `f` leaves of a process what decides its steps. -/
structure Program.Forgets
    (P : Program σ π κ ρ ε)
    (Q : Program σ π' κ ρ ε)
    (f : π → π') : Prop where
  start : ∀ r, Q.start r = f (P.start r)
  act : ∀ p k s l, Q.act p k s (f l) = (P.act p k s l).map fun o => (o.1, o.2.map f)
  crash : ∀ p l s, Q.crash p (f l) s = P.crash p l s
  env : Q.env = P.env

namespace Program.Forgets

variable {P : Program σ π κ ρ ε} {Q : Program σ π' κ ρ ε} {f : π → π'}

/-- Steps are mapped to steps. -/
theorem exec
    (hf : P.Forgets Q f)
    (w : World σ π)
    (a : Action κ ρ ε) :
    Q.exec (w.map f) a = (P.exec w a).map (World.map f) := by
  cases a with
  | spawn p r =>
      cases hp : w.procs p with
      | none => simp [Program.exec, hp, World.map_put, hf.start]
      | some l => simp [Program.exec, hp]
  | act p k =>
      cases hp : w.procs p with
      | none => simp [Program.exec, hp]
      | some l =>
          cases hact : P.act p k w.shared l with
          | none => simp [Program.exec, hp, hf.act, hact]
          | some o => simp [Program.exec, hp, hf.act, hact, World.map_put]
  | crash p =>
      cases hp : w.procs p with
      | none => simp [Program.exec, hp]
      | some l => simp [Program.exec, hp, hf.crash, World.map_put]
  | env e =>
      cases henv : P.env e w.shared with
      | none => simp [Program.exec, hf.env, henv]
      | some s => simp [Program.exec, hf.env, henv, World.map]

/-- Forgetting is a refinement. -/
theorem refinement
    (hf : P.Forgets Q f)
    (init : σ → Prop)
    (G : Q.Guarded) :
    Refinement (P.system init) (Guard.through f G) (Q.system init) G (World.map f) where
  init w hw := by
    refine ⟨hw.1, fun p => ?_⟩
    rw [World.map_procs, hw.2 p]
    rfl
  step w a w' _ hG hx := by
    refine ⟨[a], Automaton.Run.cons hG ?_ (Automaton.Run.nil _)⟩
    show Q.exec (w.map f) a = some (w'.map f)
    rw [hf.exec]
    exact congrArg (Option.map (World.map f)) hx

end Program.Forgets

end Programs

section Machines

variable {σ : Type u} {κ : Type v} {ε : Type w} {ξ : Type x} {ρ : Type y}

/-- A recorded call without its record. -/
def Recorded.forget (c : Recorded σ ρ (Script σ κ ε)) : ρ × Script σ κ ε :=
  (c.call, c.rest)

/-- The records of a machine are its processes, and more. -/
theorem Machine.records_rest (M : Machine σ ε ξ) (start : ρ → Script σ κ ε) :
    (M.records start).Forgets (M.program start) Recorded.rest where
  start _ := rfl
  act p k s c := by
    show M.act p k s c.rest = ((M.act p k s c.rest).map _).map _
    rw [Option.map_map]
    cases M.act p k s c.rest with
    | none => rfl
    | some o =>
        obtain ⟨t, l⟩ := o
        cases l <;> rfl
  crash _ _ _ := rfl
  env := rfl

/-- The records of a machine are its calls, and more. -/
theorem Machine.records_forget (M : Machine σ ε ξ) (start : ρ → Script σ κ ε) :
    (M.records start).Forgets (M.calls start) Recorded.forget where
  start _ := rfl
  act p k s c := by
    show (M.act p k s c.rest).map _ = ((M.act p k s c.rest).map _).map _
    rw [Option.map_map]
    congr 1
    funext o
    simp only [Function.comp, Option.map_map]
    rfl
  crash _ _ _ := rfl
  env := rfl

end Machines

end Core
end Yca
