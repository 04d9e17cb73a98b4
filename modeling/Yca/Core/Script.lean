import Yca.Core.Interleaving

/-!
# Sequential programs under interference

A `Script` is what a sequential program has still to do: its next step reads
the shared state, emits one event and says how the program goes on.  A
`Machine` says what the events do to the state; the processes running scripts
over a machine form a `Program`.

**The rule.**  A `Discipline` gives an invariant, the changes a process must
put up with from the others (`Rely`) and what holds whenever an event is
emitted (`Meets`).  `Safe` follows one script under that interference, and
`Discipline.moves_of_exec` then describes every step of every interleaving by
the contract of the event it emits.
-/

namespace Yca
namespace Core

universe u v w x y

/-- What a sequential program has still to do.  A label resolves what the state
does not determine. -/
inductive Script (σ : Type u) (κ : Type v) (ε : Type w)
  /-- The program has ended. -/
  | halt
  /-- One step: whether it is enabled, the event it emits and what follows. -/
  | step
      (ready : κ → σ → Bool)
      (emit : κ → σ → ε)
      (next : κ → σ → Script σ κ ε)

/-- What events, the death of a process and the surroundings do to a state. -/
structure Machine (σ : Type u) (ε : Type w) (ξ : Type x) where
  apply : Pid → ε → σ → σ
  die : Pid → σ → σ
  env : ξ → σ → Option σ

namespace Script

variable {σ : Type u} {κ : Type v} {ε : Type w}

/-- What remains of a process; nothing when its script has ended. -/
def remains : Script σ κ ε → Option (Script σ κ ε)
  | halt => none
  | l => some l

/-- The event the next step of a script emits. -/
def event (k : κ) (s : σ) : Script σ κ ε → Option ε
  | halt => none
  | step ready emit _ => if ready k s then some (emit k s) else none

theorem remains_eq
    {l m : Script σ κ ε}
    (h : remains l = some m) :
    m = l := by
  cases l with
  | halt => simp [remains] at h
  | step ready emit next => exact (Option.some.inj h).symm

end Script

namespace Machine

variable {σ : Type u} {κ : Type v} {ε : Type w} {ξ : Type x} {ρ : Type y}

/-- One step of a script. -/
def act (M : Machine σ ε ξ) (p : Pid) (k : κ) (s : σ) :
    Script σ κ ε → Option (σ × Option (Script σ κ ε))
  | .halt => none
  | .step ready emit next =>
      if ready k s then some (M.apply p (emit k s) s, (next k s).remains) else none

/-- The processes of a machine, each running the script of what it was started
with. -/
def program (M : Machine σ ε ξ) (start : ρ → Script σ κ ε) :
    Program σ (Script σ κ ε) κ ρ ξ where
  start := start
  act := M.act
  crash p _ s := M.die p s
  env := M.env

/-- Every step of a run starts an admissible process or emits an allowed
event. -/
def policy
    (M : Machine σ ε ξ)
    (start : ρ → Script σ κ ε)
    (admits : ρ → Prop)
    (allow : Pid → σ → ε → Prop) : (M.program start).Guarded
  | _, .spawn _ r => admits r
  | w, .act p k =>
      ∀ l ∈ w.procs p, ∀ e ∈ l.event k w.shared, allow p w.shared e
  | _, .crash _ => True
  | _, .env _ => True

instance
    (M : Machine σ ε ξ)
    (start : ρ → Script σ κ ε)
    (admits : ρ → Prop)
    (allow : Pid → σ → ε → Prop)
    [DecidablePred admits]
    [∀ p s e, Decidable (allow p s e)]
    (w : World σ (Script σ κ ε))
    (a : Action κ ρ ξ) :
    Decidable (M.policy start admits allow w a) :=
  match a with
  | .spawn _ r => inferInstanceAs (Decidable (admits r))
  | .act p k =>
      inferInstanceAs (Decidable
        (∀ l ∈ w.procs p, ∀ e ∈ l.event k w.shared, allow p w.shared e))
  | .crash _ => inferInstanceAs (Decidable True)
  | .env _ => inferInstanceAs (Decidable True)

end Machine

/-- An invariant with the interference it stands, and a contract for every
event. -/
structure Discipline (σ : Type u) (ε : Type w) where
  /-- What holds of every state. -/
  inv : σ → Prop
  /-- How the others may change the state under a process. -/
  Rely : Pid → σ → σ → Prop
  /-- The events of the runs under consideration. -/
  allow : Pid → σ → ε → Prop
  /-- The contract of an event. -/
  Meets : Pid → σ → ε → Prop

namespace Discipline

variable {σ : Type u} {κ : Type v} {ε : Type w} {ξ : Type x} {ρ : Type y}

/-- A machine respects a discipline. -/
structure Sound (D : Discipline σ ε) (M : Machine σ ε ξ) : Prop where
  refl : ∀ p s, D.Rely p s s
  trans : ∀ p s₁ s₂ s₃, D.Rely p s₁ s₂ → D.Rely p s₂ s₃ → D.Rely p s₁ s₃
  event : ∀ p s e, D.inv s → D.allow p s e → D.Meets p s e →
    D.inv (M.apply p e s) ∧ ∀ q, q ≠ p → D.Rely q s (M.apply p e s)
  die : ∀ p s, D.inv s → D.inv (M.die p s) ∧ ∀ q, q ≠ p → D.Rely q s (M.die p s)
  env : ∀ x s s', D.inv s → M.env x s = some s' →
    D.inv s' ∧ ∀ q, D.Rely q s s'

/-- A script keeps the contract of every event it emits, whatever the others do
in between. -/
def Safe (D : Discipline σ ε) (M : Machine σ ε ξ) (p : Pid) :
    Script σ κ ε → σ → Prop
  | .halt, _ => True
  | .step ready emit next, s =>
      ∀ s' k, D.Rely p s s' → D.inv s' → ready k s' = true →
        D.allow p s' (emit k s') →
          D.Meets p s' (emit k s') ∧
            Safe D M p (next k s') (M.apply p (emit k s') s')

/-- What one step can do to the shared state. -/
inductive Moves (D : Discipline σ ε) (M : Machine σ ε ξ) : σ → σ → Prop
  | spawn (s : σ) : Moves D M s s
  | event {s : σ} (p : Pid) (e : ε) :
      D.allow p s e → D.Meets p s e → Moves D M s (M.apply p e s)
  | die {s : σ} (p : Pid) : Moves D M s (M.die p s)
  | env {s s' : σ} (x : ξ) : M.env x s = some s' → Moves D M s s'

variable {D : Discipline σ ε} {M : Machine σ ε ξ}

/-- Interference does not make a script unsafe. -/
theorem Safe.stable
    (hD : D.Sound M)
    {p : Pid}
    {s s' : σ}
    {l : Script σ κ ε}
    (h : D.Safe M p l s)
    (hs : D.Rely p s s') :
    D.Safe M p l s' := by
  cases l with
  | halt => trivial
  | step ready emit next =>
      intro t k ht
      exact h t k (hD.trans p s s' t hs ht)

/-- A finished process has nothing left to prove. -/
theorem Safe.remains
    {p : Pid}
    {s : σ}
    {l m : Script σ κ ε}
    (h : D.Safe M p l s)
    (hm : l.remains = some m) :
    D.Safe M p m s := by
  rw [Script.remains_eq hm]
  exact h

/-- A step of a script emits one event. -/
theorem act_cases
    {p : Pid}
    {k : κ}
    {s s' : σ}
    {l : Script σ κ ε}
    {l' : Option (Script σ κ ε)}
    (h : M.act p k s l = some (s', l')) :
    ∃ ready emit next,
      l = .step ready emit next ∧
      ready k s = true ∧
      l.event k s = some (emit k s) ∧
      s' = M.apply p (emit k s) s ∧
      l' = (next k s).remains := by
  cases l with
  | halt => simp [Machine.act] at h
  | step ready emit next =>
      simp only [Machine.act] at h
      split at h
      · rename_i hready
        obtain ⟨rfl, rfl⟩ := Prod.mk.inj (Option.some.inj h)
        exact ⟨ready, emit, next, rfl, hready, by simp [Script.event, hready], rfl, rfl⟩
      · simp at h

section Runs

variable
  {start : ρ → Script σ κ ε}
  {init : σ → Prop}
  {admits : ρ → Prop}

/-- Safe scripts give a proof outline of the interleaved program, under any guard
that lets only safe scripts start and only allowed events happen. -/
theorem outline_of
    {G : (M.program start).Guarded}
    (hD : D.Sound M)
    (hinit : ∀ s, init s → D.inv s)
    (hstart : ∀ w p r, G w (.spawn p r) → D.inv w.shared → D.Safe M p (start r) w.shared)
    (hallows : ∀ w p k, G w (.act p k) →
      ∀ l ∈ w.procs p, ∀ e ∈ l.event k w.shared, D.allow p w.shared e) :
    Program.Outline (M.program start) init G D.inv (fun p s l => D.Safe M p l s) where
  init := hinit
  spawn w p r hw hG _ := hstart w p r hG hw.shared
  act w p k l s' l' hw hG hl hact := by
    obtain ⟨ready, emit, next, rfl, hready, hevent, rfl, rfl⟩ := act_cases hact
    have hallow : D.allow p w.shared (emit k w.shared) :=
      hallows w p k hG _ hl _ hevent
    obtain ⟨hmeets, hsafe⟩ :=
      hw.local_ p _ hl w.shared k (hD.refl p _) hw.shared hready hallow
    obtain ⟨hinv, hrely⟩ := hD.event p w.shared _ hw.shared hallow hmeets
    refine ⟨hinv, ?_, ?_⟩
    · intro m hm
      exact hsafe.remains hm
    · intro q m hqp _ hm
      exact hm.stable hD (hrely q hqp)
  crash w p l hw _ := by
    obtain ⟨hinv, hrely⟩ := hD.die p w.shared hw.shared
    refine ⟨hinv, ?_⟩
    intro q m hqp _ hm
    exact hm.stable hD (hrely q hqp)
  env w x s' hw _ hx := by
    obtain ⟨hinv, hrely⟩ := hD.env x w.shared s' hw.shared hx
    refine ⟨hinv, ?_⟩
    intro q m _ hm
    exact hm.stable hD (hrely q)

/-- The proof outline under a policy. -/
theorem outline
    (hD : D.Sound M)
    (hinit : ∀ s, init s → D.inv s)
    (hstart : ∀ r, admits r → ∀ p s, D.inv s → D.Safe M p (start r) s) :
    Program.Outline (M.program start) init (M.policy start admits D.allow) D.inv
      (fun p s l => D.Safe M p l s) :=
  outline_of hD hinit (fun w p r hG hinv => hstart r hG p w.shared hinv)
    fun _ _ _ hG => hG

/-- The invariant holds in every reachable state. -/
theorem inv_of_reachable
    (hD : D.Sound M)
    (hinit : ∀ s, init s → D.inv s)
    (hstart : ∀ r, admits r → ∀ p s, D.inv s → D.Safe M p (start r) s)
    {w : World σ (Script σ κ ε)}
    (hw : ((M.program start).system init).Reachable
      (M.policy start admits D.allow) w) :
    D.inv w.shared :=
  ((outline hD hinit hstart).sound hw).shared

/-- Every step of an interleaving is described by a contract. -/
theorem moves_of_exec
    (hD : D.Sound M)
    (hinit : ∀ s, init s → D.inv s)
    (hstart : ∀ r, admits r → ∀ p s, D.inv s → D.Safe M p (start r) s)
    {w w' : World σ (Script σ κ ε)}
    {a : Action κ ρ ξ}
    (hw : ((M.program start).system init).Reachable
      (M.policy start admits D.allow) w)
    (hG : M.policy start admits D.allow w a)
    (hx : (M.program start).exec w a = some w') :
    D.Moves M w.shared w'.shared := by
  have hholds := (outline hD hinit hstart).sound hw
  cases a with
  | spawn p r =>
      obtain ⟨_, rfl⟩ := Program.exec_spawn hx
      exact Moves.spawn w.shared
  | act p k =>
      obtain ⟨l, s', l', hl, hact, rfl⟩ := Program.exec_act hx
      obtain ⟨ready, emit, next, rfl, hready, hevent, rfl, rfl⟩ := act_cases hact
      have hallow : D.allow p w.shared (emit k w.shared) :=
        hG _ hl _ hevent
      obtain ⟨hmeets, _⟩ :=
        hholds.local_ p _ hl w.shared k (hD.refl p _) hholds.shared hready hallow
      exact Moves.event p _ hallow hmeets
  | crash p =>
      obtain ⟨l, _, rfl⟩ := Program.exec_crash hx
      exact Moves.die p
  | env x =>
      obtain ⟨s', hs', rfl⟩ := Program.exec_env hx
      exact Moves.env x hs'

/-- What holds at the start and is kept by every move holds in every reachable
state. -/
theorem keeps
    (hD : D.Sound M)
    (hinit : ∀ s, init s → D.inv s)
    (hstart : ∀ r, admits r → ∀ p s, D.inv s → D.Safe M p (start r) s)
    {P : σ → Prop}
    (hP : ∀ s, init s → P s)
    (hmoves : ∀ s s', D.inv s → D.inv s' → P s → D.Moves M s s' → P s')
    {w : World σ (Script σ κ ε)}
    (hw : ((M.program start).system init).Reachable
      (M.policy start admits D.allow) w) :
    P w.shared := by
  have hreach : ∀ v, ((M.program start).system init).Reachable
      (M.policy start admits D.allow) v → D.inv v.shared :=
    fun v hv => inv_of_reachable hD hinit hstart hv
  rcases hw with ⟨w₀, ks, h₀, hrun⟩
  have hw₀ := Automaton.Reachable.of_init (G := M.policy start admits D.allow) h₀
  refine Automaton.Run.stable (P := fun v => P v.shared) (I := fun v =>
    ((M.program start).system init).Reachable (M.policy start admits D.allow) v)
    (fun v hv => hv) ?_ hw₀ hrun (hP _ h₀.1)
  intro v a v' hv hv' hG hx hPv
  exact hmoves v.shared v'.shared (hreach v hv) (hreach v' hv') hPv
    (moves_of_exec hD hinit hstart hv hG hx)

end Runs
end Discipline
end Core
end Yca
