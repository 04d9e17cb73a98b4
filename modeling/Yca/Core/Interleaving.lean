import Yca.Core.Automaton
import Mathlib.Logic.Function.Basic

/-!
# Processes interleaved over a shared state

A *program* says how one process takes its steps over a shared state.  A
*world* is the shared state together with the local state of every live
process.  The worlds of a program form an automaton whose labels say which
process moves: every order of the processes' steps is one label sequence, and
a crash of any process is allowed between any two of its steps.

**The rule.**  `Outline` is the proof outline of a program in the manner of
interference-free annotations: an invariant `I` of the shared state, an
assertion `J` for the local state of each process, and the four facts that make
them inductive.  `Outline.sound` then gives both in every reachable world.
-/

namespace Yca
namespace Core

universe u v w x y

/-- Process identifiers. -/
abbrev Pid : Type :=
  Nat

/-- How processes with local state `π` act on a shared state `σ`.  The label
of a step (`κ`) resolves its nondeterminism, `ρ` is what a process is started
with, and `ε` are steps of the surroundings. -/
structure Program
    (σ : Type u) (π : Type v) (κ : Type w) (ρ : Type x) (ε : Type y) where
  /-- The local state a process starts in. -/
  start : ρ → π
  /-- One step of a process; no local state afterwards when it has ended. -/
  act : Pid → κ → σ → π → Option (σ × Option π)
  /-- What the death of a process does to the shared state. -/
  crash : Pid → π → σ → σ
  /-- A step of the surroundings. -/
  env : ε → σ → Option σ

/-- The shared state and the live processes. -/
structure World (σ : Type u) (π : Type v) where
  shared : σ
  procs : Pid → Option π

/-- The labels of the interleaved system. -/
inductive Action (κ : Type w) (ρ : Type x) (ε : Type y)
  | spawn (p : Pid) (r : ρ)
  | act (p : Pid) (k : κ)
  | crash (p : Pid)
  | env (e : ε)

namespace World

variable {σ : Type u} {π : Type v}

/-- The world with no process running. -/
def idle (s : σ) : World σ π :=
  ⟨s, fun _ => none⟩

/-- A new shared state, and a new local state (or none) for one process. -/
def put (w : World σ π) (s : σ) (p : Pid) (l : Option π) : World σ π :=
  ⟨s, Function.update w.procs p l⟩

/-- No process is running. -/
def Quiet (w : World σ π) : Prop :=
  ∀ p, w.procs p = none

@[simp] theorem idle_shared (s : σ) :
    (idle s : World σ π).shared = s := by
  rfl

@[simp] theorem put_shared (w : World σ π) (s : σ) (p : Pid) (l : Option π) :
    (w.put s p l).shared = s := by
  rfl

@[simp] theorem put_procs_self
    (w : World σ π)
    (s : σ)
    (p : Pid)
    (l : Option π) :
    (w.put s p l).procs p = l := by
  simp [put]

theorem put_procs_of_ne
    (w : World σ π)
    (s : σ)
    {p q : Pid}
    (hqp : q ≠ p)
    (l : Option π) :
    (w.put s p l).procs q = w.procs q := by
  simp [put, hqp]

theorem idle_quiet (s : σ) :
    (idle s : World σ π).Quiet := by
  intro p
  rfl

end World

namespace Program

variable {σ : Type u} {π : Type v} {κ : Type w} {ρ : Type x} {ε : Type y}

/-- One step of the interleaved system. -/
def exec (P : Program σ π κ ρ ε) (w : World σ π) :
    Action κ ρ ε → Option (World σ π)
  | .spawn p r =>
      match w.procs p with
      | none => some (w.put w.shared p (some (P.start r)))
      | some _ => none
  | .act p k =>
      match w.procs p with
      | none => none
      | some l =>
          match P.act p k w.shared l with
          | none => none
          | some (s', l') => some (w.put s' p l')
  | .crash p =>
      match w.procs p with
      | none => none
      | some l => some (w.put (P.crash p l w.shared) p none)
  | .env e =>
      match P.env e w.shared with
      | none => none
      | some s' => some ⟨s', w.procs⟩

/-- The automaton of all interleavings, started with no process running. -/
def system (P : Program σ π κ ρ ε) (init : σ → Prop) :
    Automaton (World σ π) (Action κ ρ ε) where
  init w := init w.shared ∧ w.Quiet
  exec := P.exec

/-- A guard on the interleaved system. -/
abbrev Guarded (_ : Program σ π κ ρ ε) : Type (max u v w x y) :=
  Guard (World σ π) (Action κ ρ ε)

variable {P : Program σ π κ ρ ε}

theorem exec_spawn
    {w w' : World σ π}
    {p : Pid}
    {r : ρ}
    (h : P.exec w (.spawn p r) = some w') :
    w.procs p = none ∧
      w' = w.put w.shared p (some (P.start r)) := by
  simp only [exec] at h
  split at h
  · rename_i hp
    exact ⟨hp, (Option.some.inj h).symm⟩
  · simp at h

theorem exec_act
    {w w' : World σ π}
    {p : Pid}
    {k : κ}
    (h : P.exec w (.act p k) = some w') :
    ∃ l s' l',
      w.procs p = some l ∧
      P.act p k w.shared l = some (s', l') ∧
      w' = w.put s' p l' := by
  simp only [exec] at h
  split at h
  · simp at h
  · rename_i l hl
    split at h
    · simp at h
    · rename_i s' l' hact
      exact ⟨l, s', l', hl, hact, (Option.some.inj h).symm⟩

theorem exec_crash
    {w w' : World σ π}
    {p : Pid}
    (h : P.exec w (.crash p) = some w') :
    ∃ l,
      w.procs p = some l ∧
      w' = w.put (P.crash p l w.shared) p none := by
  simp only [exec] at h
  split at h
  · simp at h
  · rename_i l hl
    exact ⟨l, hl, (Option.some.inj h).symm⟩

theorem exec_env
    {w w' : World σ π}
    {e : ε}
    (h : P.exec w (.env e) = some w') :
    ∃ s', P.env e w.shared = some s' ∧ w' = ⟨s', w.procs⟩ := by
  simp only [exec] at h
  split at h
  · simp at h
  · rename_i s' hs
    exact ⟨s', hs, (Option.some.inj h).symm⟩

/-- Only processes that a run starts are running at its end. -/
theorem procs_of_run
    {init : σ → Prop}
    {G : P.Guarded}
    {w w' : World σ π}
    {as : List (Action κ ρ ε)}
    (h : (P.system init).Run G w as w')
    {p : Pid}
    (hp : w.procs p = none)
    (hspawn : ∀ r, .spawn p r ∉ as) :
    w'.procs p = none := by
  induction h with
  | nil w => exact hp
  | @cons w v w' a as _ hx _ ih =>
      refine ih ?_ fun r hr => hspawn r (List.mem_cons_of_mem _ hr)
      cases a with
      | spawn q r =>
          obtain ⟨_, rfl⟩ := exec_spawn hx
          have hqp : p ≠ q := by
            rintro rfl
            exact hspawn r List.mem_cons_self
          rw [World.put_procs_of_ne w _ hqp]
          exact hp
      | act q k =>
          obtain ⟨l, s', l', hl, _, rfl⟩ := exec_act hx
          have hqp : p ≠ q := by
            rintro rfl
            simp [hp] at hl
          rw [World.put_procs_of_ne w _ hqp]
          exact hp
      | crash q =>
          obtain ⟨l, hl, rfl⟩ := exec_crash hx
          have hqp : p ≠ q := by
            rintro rfl
            simp [hp] at hl
          rw [World.put_procs_of_ne w _ hqp]
          exact hp
      | env e =>
          obtain ⟨s', _, rfl⟩ := exec_env hx
          exact hp

/-- A shared invariant together with the assertion at each process. -/
structure Holds (I : σ → Prop) (J : Pid → σ → π → Prop) (w : World σ π) :
    Prop where
  shared : I w.shared
  local_ : ∀ p l, w.procs p = some l → J p w.shared l

/-- The assertions after one process has moved. -/
theorem Holds.put
    {I : σ → Prop}
    {J : Pid → σ → π → Prop}
    {w : World σ π}
    {s : σ}
    {p : Pid}
    {l : Option π}
    (hI : I s)
    (hown : ∀ m, l = some m → J p s m)
    (hothers : ∀ q m, q ≠ p → w.procs q = some m → J q s m) :
    Holds I J (w.put s p l) := by
  refine ⟨hI, ?_⟩
  intro q m hq
  by_cases hqp : q = p
  · subst hqp
    rw [World.put_procs_self] at hq
    exact hown m hq
  · rw [World.put_procs_of_ne w s hqp] at hq
    exact hothers q m hqp hq

/-- Proof outline of a program under a guard. -/
structure Outline
    (P : Program σ π κ ρ ε)
    (init : σ → Prop)
    (G : P.Guarded)
    (I : σ → Prop)
    (J : Pid → σ → π → Prop) : Prop where
  /-- The invariant holds at the start. -/
  init : ∀ s, init s → I s
  /-- A new process meets its first assertion. -/
  spawn : ∀ w p r,
    Holds I J w → G w (.spawn p r) → w.procs p = none →
      J p w.shared (P.start r)
  /-- A step keeps the invariant, meets the mover's next assertion and leaves
  the assertions of the others standing. -/
  act : ∀ w p k l s' l',
    Holds I J w → G w (.act p k) → w.procs p = some l →
    P.act p k w.shared l = some (s', l') →
      I s' ∧
      (∀ m, l' = some m → J p s' m) ∧
      (∀ q m, q ≠ p → w.procs q = some m → J q w.shared m → J q s' m)
  /-- A crash keeps the invariant and the assertions of the others. -/
  crash : ∀ w p l,
    Holds I J w → w.procs p = some l →
      I (P.crash p l w.shared) ∧
      (∀ q m, q ≠ p → w.procs q = some m → J q w.shared m →
        J q (P.crash p l w.shared) m)
  /-- The surroundings keep the invariant and every assertion. -/
  env : ∀ w e s',
    Holds I J w → G w (.env e) → P.env e w.shared = some s' →
      I s' ∧ (∀ q m, w.procs q = some m → J q w.shared m → J q s' m)

namespace Outline

variable
  {init : σ → Prop} {G : P.Guarded} {I : σ → Prop} {J : Pid → σ → π → Prop}

/-- One guarded step keeps the outline's assertions. -/
theorem step
    (O : Outline P init G I J)
    {w w' : World σ π}
    {a : Action κ ρ ε}
    (hw : Holds I J w)
    (hG : G w a)
    (hx : P.exec w a = some w') :
    Holds I J w' := by
  cases a with
  | spawn p r =>
      rcases exec_spawn hx with ⟨hp, rfl⟩
      refine Holds.put hw.shared ?_ ?_
      · intro m hm
        have hJ := O.spawn w p r hw hG hp
        rwa [Option.some.inj hm] at hJ
      · intro q m _ hq
        exact hw.local_ q m hq
  | act p k =>
      rcases exec_act hx with ⟨l, s', l', hl, hact, rfl⟩
      rcases O.act w p k l s' l' hw hG hl hact with ⟨hI, hown, hothers⟩
      refine Holds.put hI hown ?_
      intro q m hqp hq
      exact hothers q m hqp hq (hw.local_ q m hq)
  | crash p =>
      rcases exec_crash hx with ⟨l, hl, rfl⟩
      rcases O.crash w p l hw hl with ⟨hI, hothers⟩
      refine Holds.put hI ?_ ?_
      · intro m hm
        simp at hm
      · intro q m hqp hq
        exact hothers q m hqp hq (hw.local_ q m hq)
  | env e =>
      rcases exec_env hx with ⟨s', hs, rfl⟩
      rcases O.env w e s' hw hG hs with ⟨hI, hothers⟩
      refine ⟨hI, ?_⟩
      intro q m hq
      exact hothers q m hq (hw.local_ q m hq)

/-- The assertions of an outline hold in every reachable world. -/
theorem sound
    (O : Outline P init G I J)
    {w : World σ π}
    (hw : (P.system init).Reachable G w) :
    Holds I J w := by
  refine Automaton.Reachable.invariant ?_ ?_ hw
  · intro s hs
    refine ⟨O.init _ hs.1, ?_⟩
    intro p l hp
    rw [hs.2 p] at hp
    simp at hp
  · intro s a s' hs hG hx
    exact O.step hs hG hx

end Outline
end Program
end Core
end Yca
