import Yca.Core.Automaton

/-!
# Readers beside a running system

A *reader* looks at the state of an automaton again and again and keeps local
state of its own, but never writes what it looks at.  Between two looks the
system may take any number of steps.  `beside` is the automaton of both, so
that one of its runs is one order of the system's steps and the reader's
looks.

`Run.observe` is the rule for such a run: an assertion about what the reader
has seen holds at its end when each look establishes it and no step of the
system destroys it.  In `Run.observe_past` the assertion may also speak of the
states that the run has passed.
-/

namespace Yca
namespace Core

universe u v w x

variable {σ : Type u} {κ : Type v} {ι : Type w} {π : Type x}

namespace Automaton

/-- A system and a reader that starts while the system is running. -/
def beside (M : Automaton σ κ) (look : ι → σ → π → Option π) :
    Automaton (σ × π) (κ ⊕ ι) where
  init s := M.init s.1
  exec s
    | .inl k => (M.exec s.1 k).map fun s' => (s', s.2)
    | .inr i => (look i s.1 s.2).map fun l => (s.1, l)

/-- The guard of the system; the reader may look whenever it likes. -/
def watched (G : Guard σ κ) : Guard (σ × π) (κ ⊕ ι)
  | s, .inl k => G s.1 k
  | _, .inr _ => True

instance (G : Guard σ κ) [∀ s k, Decidable (G s k)] (s : σ × π) :
    (a : κ ⊕ ι) → Decidable (watched G s a)
  | .inl k => (inferInstance : Decidable (G s.1 k))
  | .inr _ => isTrue trivial

variable
  {M : Automaton σ κ} {G : Guard σ κ} {look : ι → σ → π → Option π}

theorem beside_inl
    {s t : σ × π}
    {k : κ}
    (h : (M.beside look).exec s (.inl k) = some t) :
    M.exec s.1 k = some t.1 ∧ t.2 = s.2 := by
  simp only [beside, Option.map_eq_some_iff] at h
  rcases h with ⟨s', hx, rfl⟩
  exact ⟨hx, rfl⟩

theorem beside_inr
    {s t : σ × π}
    {i : ι}
    (h : (M.beside look).exec s (.inr i) = some t) :
    look i s.1 s.2 = some t.2 ∧ t.1 = s.1 := by
  simp only [beside, Option.map_eq_some_iff] at h
  rcases h with ⟨l, hx, rfl⟩
  exact ⟨hx, rfl⟩

/-- The system's part of a run. -/
theorem Run.system
    {s t : σ × π}
    {as : List (κ ⊕ ι)}
    (h : (M.beside look).Run (watched G) s as t) :
    ∃ ks, M.Run G s.1 ks t.1 := by
  induction h with
  | nil s => exact ⟨[], Run.nil s.1⟩
  | @cons s s' t a as hG hx _ ih =>
      rcases ih with ⟨ks, hks⟩
      cases a with
      | inl k => exact ⟨k :: ks, Run.cons hG (beside_inl hx).1 hks⟩
      | inr i =>
          rw [(beside_inr hx).2] at hks
          exact ⟨ks, hks⟩

/-- A reader leaves no trace: the system reaches only what it reaches alone. -/
theorem Run.reachable
    {s t : σ × π}
    {as : List (κ ⊕ ι)}
    (hs : M.Reachable G s.1)
    (h : (M.beside look).Run (watched G) s as t) :
    M.Reachable G t.1 := by
  rcases h.system with ⟨ks, hks⟩
  exact hs.run hks

/-- The rule for readers. -/
theorem Run.observe
    {I : σ → Prop}
    {J : σ → π → Prop}
    (hI : ∀ s, M.Reachable G s → I s)
    (hmove : ∀ s k s' l, I s → I s' → G s k → M.exec s k = some s' → J s l → J s' l)
    (hlook : ∀ s i l l', I s → look i s l = some l' → J s l → J s l')
    {s t : σ × π}
    {as : List (κ ⊕ ι)}
    (hs : M.Reachable G s.1)
    (h : (M.beside look).Run (watched G) s as t)
    (hJ : J s.1 s.2) :
    J t.1 t.2 := by
  induction h with
  | nil s => exact hJ
  | @cons s s' t a as hG hx _ ih =>
      cases a with
      | inl k =>
          rcases beside_inl hx with ⟨hx, hl⟩
          have hs' := hs.step hG hx
          refine ih hs' ?_
          rw [hl]
          exact hmove _ _ _ _ (hI _ hs) (hI _ hs') hG hx hJ
      | inr i =>
          rcases beside_inr hx with ⟨hx, hl⟩
          refine ih (hl ▸ hs) ?_
          rw [hl]
          exact hlook _ _ _ _ (hI _ hs) hx hJ

/-- The run from `s` passed this state of the system. -/
def Passed
    (M : Automaton σ κ)
    (look : ι → σ → π → Option π)
    (G : Guard σ κ)
    (s : σ × π)
    (as : List (κ ⊕ ι))
    (v : σ) : Prop :=
  ∃ is js l, as = is ++ js ∧ (M.beside look).Run (watched G) s is (v, l)

theorem Passed.more
    {s : σ × π}
    {as js : List (κ ⊕ ι)}
    {v : σ}
    (h : M.Passed look G s as v) :
    M.Passed look G s (as ++ js) v := by
  rcases h with ⟨is, ks, l, rfl, hrun⟩
  exact ⟨is, ks ++ js, l, List.append_assoc _ _ _, hrun⟩

/-- The rule for readers whose assertion speaks of the states passed. -/
theorem Run.observe_past
    {I : σ → Prop}
    {J : (σ → Prop) → σ → π → Prop}
    (hI : ∀ s, M.Reachable G s → I s)
    (hmono : ∀ P Q s l, (∀ v, P v → Q v) → J P s l → J Q s l)
    (hmove : ∀ P s k s' l, I s → I s' → G s k → M.exec s k = some s' → J P s l → J P s' l)
    (hlook : ∀ P s i l l', I s → P s → look i s l = some l' → J P s l → J P s l')
    {s t : σ × π}
    {as : List (κ ⊕ ι)}
    (hs : M.Reachable G s.1)
    (h : (M.beside look).Run (watched G) s as t)
    (hJ : ∀ P, J P s.1 s.2) :
    J (M.Passed look G s as) t.1 t.2 := by
  refine Run.so_far (P := fun js u => J (M.Passed look G s js) u.1 u.2) (hJ _) ?_ h
  intro js m a m' hrun hm hG hx
  have hm' := hmono _ (M.Passed look G s (js ++ [a])) m.1 m.2 (fun _ => Passed.more) hm
  have hreach := hrun.reachable hs
  cases a with
  | inl k =>
      rcases beside_inl hx with ⟨hexec, hl⟩
      rw [hl]
      exact hmove _ _ _ _ _ (hI _ hreach) (hI _ (hreach.step hG hexec)) hG hexec hm'
  | inr i =>
      rcases beside_inr hx with ⟨hread, hv⟩
      rw [hv]
      exact hlook _ _ _ _ _ (hI _ hreach) ⟨js, [.inr i], m.2, rfl, hrun⟩ hread hm'

/-- A reader that is not disturbed. -/
theorem Run.looks
    {s : σ}
    {l m : π}
    {i : ι}
    {as : List (κ ⊕ ι)}
    {t : σ × π}
    (hx : look i s l = some m)
    (h : (M.beside look).Run (watched G) (s, m) as t) :
    (M.beside look).Run (watched G) (s, l) (.inr i :: as) t := by
  refine Run.cons trivial ?_ h
  simp [beside, hx]

end Automaton
end Core
end Yca
