import Yca.Core.Interleaving
import Mathlib.Data.Fintype.EquivFin

/-!
# What a process can do alone

While a system runs, any of its processes may stop for as long as it likes.  What
one process can still bring about, with the others stopped where they are, is
what the system cannot be kept from.  `Achieves` says it of one process from one
point of its code; the rules compose such facts step by step and turn them into
runs of the whole system, in which nothing else moves.  `Alone` and `InTurn` name
these runs by what the new processes are started with.
-/

namespace Yca
namespace Core

universe u v w x y

variable {σ : Type u} {π : Type v} {κ : Type w} {ρ : Type x} {ε : Type y}

namespace World

/-- Whatever was running is where it was. -/
def Beside (w w' : World σ π) : Prop :=
  ∀ q, w.procs q ≠ none → w'.procs q = w.procs q

theorem Beside.refl (w : World σ π) :
    w.Beside w :=
  fun _ _ => rfl

theorem Beside.trans
    {w₁ w₂ w₃ : World σ π}
    (h₁ : w₁.Beside w₂)
    (h₂ : w₂.Beside w₃) :
    w₁.Beside w₃ := by
  intro q hq
  have hsame := h₁ q hq
  rw [h₂ q (by rw [hsame]; exact hq), hsame]

/-- A process that was not running may come and go. -/
theorem Beside.put
    (w : World σ π)
    {p : Pid}
    (hp : w.procs p = none)
    (s : σ)
    (l : Option π) :
    w.Beside (w.put s p l) := by
  intro q hq
  refine put_procs_of_ne w s ?_ l
  rintro rfl
  exact hq hp

theorem put_put
    (w : World σ π)
    (s s' : σ)
    (p : Pid)
    (l l' : Option π) :
    (w.put s p l).put s' p l' = w.put s' p l' := by
  simp [World.put]

end World

namespace Program

variable {P : Program σ π κ ρ ε} {p : Pid}

/-- Process `p`, alone, can come to where `Q` holds. -/
inductive Achieves
    (P : Program σ π κ ρ ε)
    (p : Pid)
    (Q : σ → Option π → Prop) : σ → Option π → Prop
  | done {s : σ} {l : Option π} :
      Q s l →
      Achieves P p Q s l
  | step {s s' : σ} {l : π} {l' : Option π} (k : κ) :
      P.act p k s l = some (s', l') →
      Achieves P p Q s' l' →
      Achieves P p Q s (some l)

namespace Achieves

variable {Q R : σ → Option π → Prop}

/-- One thing after the other. -/
theorem trans
    {s : σ}
    {l : Option π}
    (h : P.Achieves p Q s l)
    (hQ : ∀ s l, Q s l → P.Achieves p R s l) :
    P.Achieves p R s l := by
  induction h with
  | done hq => exact hQ _ _ hq
  | step k hact _ ih => exact step k hact ih

/-- What a process does alone is a run of the system. -/
theorem run
    {init : σ → Prop}
    {G : P.Guarded}
    (hfree : ∀ w k, G w (.act p k))
    {s : σ}
    {l : Option π}
    (h : P.Achieves p Q s l)
    (w : World σ π) :
    ∃ (ks : List κ) (s' : σ) (l' : Option π),
      (P.system init).Run G (w.put s p l) (ks.map (.act p)) (w.put s' p l') ∧
        Q s' l' := by
  induction h with
  | done hq => exact ⟨[], _, _, Automaton.Run.nil _, hq⟩
  | @step s t l l' k hact _ ih =>
      obtain ⟨ks, s', l'', hrun, hq⟩ := ih
      refine ⟨k :: ks, s', l'', Automaton.Run.cons (hfree _ k) ?_ hrun, hq⟩
      show P.exec (w.put s p (some l)) (.act p k) = some (w.put t p l')
      simp only [exec, World.put_procs_self, World.put_shared, hact, World.put_put]

end Achieves

/-- A process that is not running is started with `r`, and nothing moves but
it. -/
def Alone
    (P : Program σ π κ ρ ε)
    (init : σ → Prop)
    (G : P.Guarded)
    (r : ρ)
    (w w' : World σ π) : Prop :=
  ∃ (p : Pid) (ks : List κ), w.procs p = none ∧
    (P.system init).Run G w (.spawn p r :: ks.map (.act p)) w'

/-- New processes run one after the other, each of them alone. -/
inductive InTurn
    (P : Program σ π κ ρ ε)
    (init : σ → Prop)
    (G : P.Guarded) : List ρ → World σ π → World σ π → Prop
  | nil (w : World σ π) : InTurn P init G [] w w
  | cons {r : ρ} {rs : List ρ} {w w' w'' : World σ π} :
      P.Alone init G r w w' →
      InTurn P init G rs w' w'' →
      InTurn P init G (r :: rs) w w''

section Alone

variable {init : σ → Prop} {G : P.Guarded} {w w' w'' : World σ π}

/-- The steps of one process leave the others where they are. -/
theorem procs_of_acts
    {as : List (Action κ ρ ε)}
    (h : (P.system init).Run G w as w')
    (hacts : ∀ a ∈ as, ∃ k, a = .act p k)
    {q : Pid}
    (hqp : q ≠ p) :
    w'.procs q = w.procs q := by
  induction h with
  | nil w => rfl
  | @cons w v w' a as _ hx _ ih =>
      obtain ⟨k, rfl⟩ := hacts a List.mem_cons_self
      obtain ⟨l, s', l', _, _, rfl⟩ := exec_act hx
      rw [ih fun a ha => hacts a (List.mem_cons_of_mem _ ha), World.put_procs_of_ne w s' hqp]

theorem Alone.beside
    {r : ρ}
    (h : P.Alone init G r w w') :
    w.Beside w' := by
  obtain ⟨p, ks, hp, hrun⟩ := h
  cases hrun with
  | cons _ hx hacts =>
      obtain ⟨_, rfl⟩ := exec_spawn hx
      intro q hq
      have hqp : q ≠ p := by
        rintro rfl
        exact hq hp
      rw [procs_of_acts hacts ?_ hqp, World.put_procs_of_ne w _ hqp]
      intro a ha
      obtain ⟨k, _, rfl⟩ := List.mem_map.mp ha
      exact ⟨k, rfl⟩

/-- What a process achieves alone, a new one can. -/
theorem Achieves.call
    {Q : σ → Option π → Prop}
    (hfree : ∀ w k, G w (.act p k))
    (hp : w.procs p = none)
    {r : ρ}
    (hG : G w (.spawn p r))
    (h : P.Achieves p Q w.shared (some (P.start r))) :
    ∃ w' l', P.Alone init G r w w' ∧ Q w'.shared l' := by
  have hgo : ∃ (ks : List κ) (s' : σ) (l' : Option π),
      (P.system init).Run G (w.put w.shared p (some (P.start r)))
      (ks.map (.act p)) (w.put s' p l') ∧ Q s' l' :=
    h.run hfree w
  obtain ⟨ks, s', l', hrun, hq⟩ := hgo
  refine ⟨w.put s' p l', l', ⟨p, ks, hp, Automaton.Run.cons hG ?_ hrun⟩, hq⟩
  show P.exec w (.spawn p r) = _
  simp only [exec, hp]

namespace InTurn

theorem append
    {rs rs' : List ρ}
    (h : P.InTurn init G rs w w')
    (h' : P.InTurn init G rs' w' w'') :
    P.InTurn init G (rs ++ rs') w w'' := by
  induction h with
  | nil w => exact h'
  | cons hr _ ih => exact cons hr (ih h')

theorem beside
    {rs : List ρ}
    (h : P.InTurn init G rs w w') :
    w.Beside w' := by
  induction h with
  | nil w => exact World.Beside.refl w
  | cons hr _ ih => exact hr.beside.trans ih

theorem run
    {rs : List ρ}
    (h : P.InTurn init G rs w w') :
    ∃ as, (P.system init).Run G w as w' := by
  induction h with
  | nil w => exact ⟨[], Automaton.Run.nil w⟩
  | cons hr _ ih =>
      obtain ⟨p, ks, _, hrun⟩ := hr
      obtain ⟨as, hrest⟩ := ih
      exact ⟨_, hrun.append hrest⟩

end InTurn

end Alone

/-- The processes a run starts. -/
def started : List (Action κ ρ ε) → List Pid
  | [] => []
  | .spawn p _ :: as => p :: started as
  | _ :: as => started as

end Program

end Core
end Yca
