import Yca.Core.Script
import Mathlib.Logic.Relation

/-!
# Calls

A process forgets what it was started with: only what it has still to do is
left.  The *calls* of a program are its processes with that record kept beside
them; forgetting it gives the program back.

**The rule.**  A `Conduct` is a discipline whose contracts may depend on the
call.  As with a discipline, the scripts are followed once under interference,
and `Conduct.emitted` then says of every step of every interleaving what the
call that made it promises.
-/

namespace Yca
namespace Core

universe u v w x y

namespace Program

variable {σ : Type u} {π : Type v} {κ : Type w} {ρ : Type x} {ε : Type y}

/-- The processes of a program, each with what it was started with. -/
def called (P : Program σ π κ ρ ε) : Program σ (ρ × π) κ ρ ε where
  start r := (r, P.start r)
  act p k s c := (P.act p k s c.2).map fun o => (o.1, o.2.map (Prod.mk c.1))
  crash p c s := P.crash p c.2 s
  env := P.env

end Program

namespace Script

variable {σ : Type u} {κ : Type v} {ε : Type w}

/-- A script ends with the first of these events. -/
def EndsOn (last : ε → Bool) : Script σ κ ε → Prop
  | halt => True
  | step _ emit next =>
      ∀ k s, (last (emit k s) = true → next k s = halt) ∧ EndsOn last (next k s)

theorem EndsOn.remains
    {last : ε → Bool}
    {l m : Script σ κ ε}
    (h : EndsOn last l)
    (hm : l.remains = some m) :
    EndsOn last m := by
  rw [remains_eq hm]
  exact h

end Script

namespace Machine

variable {σ : Type u} {κ : Type v} {ε : Type w} {ξ : Type x} {ρ : Type y}

/-- The calls of a machine. -/
def calls (M : Machine σ ε ξ) (start : ρ → Script σ κ ε) :
    Program σ (ρ × Script σ κ ε) κ ρ ξ :=
  (M.program start).called

/-- Every step of a run starts an admissible call or emits an event its call is
allowed. -/
def callPolicy
    (M : Machine σ ε ξ)
    (start : ρ → Script σ κ ε)
    (admits : Pid → ρ → Prop)
    (allow : ρ → Pid → σ → ε → Prop) : (M.calls start).Guarded
  | _, .spawn p r => admits p r
  | w, .act p k =>
      ∀ c ∈ w.procs p, ∀ e ∈ c.2.event k w.shared, allow c.1 p w.shared e
  | _, .crash _ => True
  | _, .env _ => True

instance
    (M : Machine σ ε ξ)
    (start : ρ → Script σ κ ε)
    (admits : Pid → ρ → Prop)
    (allow : ρ → Pid → σ → ε → Prop)
    [∀ p, DecidablePred (admits p)]
    [∀ r p s e, Decidable (allow r p s e)]
    (w : World σ (ρ × Script σ κ ε))
    (a : Action κ ρ ξ) :
    Decidable (M.callPolicy start admits allow w a) :=
  match a with
  | .spawn p r => inferInstanceAs (Decidable (admits p r))
  | .act p k =>
      inferInstanceAs (Decidable
        (∀ c ∈ w.procs p, ∀ e ∈ c.2.event k w.shared, allow c.1 p w.shared e))
  | .crash _ => inferInstanceAs (Decidable True)
  | .env _ => inferInstanceAs (Decidable True)

/-- In this step process `p`, running call `r`, emits `e`. -/
def Emits
    (M : Machine σ ε ξ)
    (start : ρ → Script σ κ ε)
    (G : (M.calls start).Guarded)
    (w : World σ (ρ × Script σ κ ε))
    (p : Pid)
    (r : ρ)
    (e : ε)
    (w' : World σ (ρ × Script σ κ ε)) : Prop :=
  ∃ k l,
    w.procs p = some (r, l) ∧
    l.event k w.shared = some e ∧
    G w (.act p k) ∧
    (M.calls start).exec w (.act p k) = some w'

/-- What a process finds changed between two of its steps: what the others did,
and its own events of the given kind. -/
def Since
    (M : Machine σ ε ξ)
    (Rely : Pid → σ → σ → Prop)
    (own : ε → Bool)
    (p : Pid) : σ → σ → Prop :=
  Relation.ReflTransGen fun s t => Rely p s t ∨ ∃ e, own e = true ∧ t = M.apply p e s

variable {M : Machine σ ε ξ} {start : ρ → Script σ κ ε} {G : (M.calls start).Guarded}

/-- A step of a call emits one event. -/
theorem act_calls
    {w w' : World σ (ρ × Script σ κ ε)}
    {p : Pid}
    {k : κ}
    (hx : (M.calls start).exec w (.act p k) = some w') :
    ∃ r ready emit next,
      w.procs p = some (r, .step ready emit next) ∧
      ready k w.shared = true ∧
      w' = w.put (M.apply p (emit k w.shared) w.shared) p
        ((next k w.shared).remains.map (Prod.mk r)) := by
  obtain ⟨⟨r, l⟩, s', c', hl, hact, rfl⟩ := Program.exec_act hx
  obtain ⟨⟨t, m⟩, hstep, heq⟩ := Option.map_eq_some_iff.mp hact
  obtain ⟨ready, emit, next, rfl, hready, _, rfl, rfl⟩ := Discipline.act_cases hstep
  obtain ⟨rfl, rfl⟩ := Prod.mk.inj heq
  exact ⟨r, ready, emit, next, hl, hready, rfl⟩

/-- The state after an event. -/
theorem Emits.shared
    {w w' : World σ (ρ × Script σ κ ε)}
    {p : Pid}
    {r : ρ}
    {e : ε}
    (h : M.Emits start G w p r e w') :
    w'.shared = M.apply p e w.shared := by
  obtain ⟨k, l, hl, hevent, _, hx⟩ := h
  obtain ⟨r', ready, emit, next, hl', hready, rfl⟩ := act_calls hx
  obtain ⟨rfl, rfl⟩ := Prod.mk.inj (Option.some.inj (hl.symm.trans hl'))
  simp only [Script.event, hready, if_true, Option.some.injEq] at hevent
  rw [← hevent]
  rfl

/-- A step in which an event is emitted is a step of a run. -/
theorem Emits.step
    {w w' : World σ (ρ × Script σ κ ε)}
    {p : Pid}
    {r : ρ}
    {e : ε}
    (h : M.Emits start G w p r e w') :
    ∃ k, G w (.act p k) ∧ (M.calls start).exec w (.act p k) = some w' := by
  obtain ⟨k, _, _, _, hG, hx⟩ := h
  exact ⟨k, hG, hx⟩

/-- A step of a process is a step of the call it runs. -/
theorem Emits.of_exec
    {w w' : World σ (ρ × Script σ κ ε)}
    {p : Pid}
    {k : κ}
    {r : ρ}
    (hr : (w.procs p).map Prod.fst = some r)
    (hG : G w (.act p k))
    (hx : (M.calls start).exec w (.act p k) = some w') :
    ∃ e, M.Emits start G w p r e w' := by
  obtain ⟨r', ready, emit, next, hl, hready, _⟩ := act_calls hx
  rw [hl] at hr
  obtain rfl : r' = r := Option.some.inj hr
  exact ⟨emit k w.shared, k, _, hl, by simp [Script.event, hready], hG, hx⟩

/-- The same, when the event is known. -/
theorem Emits.of_event
    {w w' : World σ (ρ × Script σ κ ε)}
    {p : Pid}
    {k : κ}
    {r : ρ}
    {e : ε}
    (hr : (w.procs p).map Prod.fst = some r)
    (he : ((w.procs p).bind fun c => c.2.event k w.shared) = some e)
    (hG : G w (.act p k))
    (hx : (M.calls start).exec w (.act p k) = some w') :
    M.Emits start G w p r e w' := by
  obtain ⟨⟨r', l⟩, hl, rfl⟩ := Option.map_eq_some_iff.mp hr
  rw [hl] at he
  exact ⟨k, l, hl, he, hG, hx⟩

section Since

variable {Rely : Pid → σ → σ → Prop} {mine : ε → Bool} {p : Pid}

theorem Since.refl (s : σ) :
    M.Since Rely mine p s s :=
  Relation.ReflTransGen.refl

theorem Since.trans
    {s₁ s₂ s₃ : σ}
    (h₁ : M.Since Rely mine p s₁ s₂)
    (h₂ : M.Since Rely mine p s₂ s₃) :
    M.Since Rely mine p s₁ s₃ :=
  Relation.ReflTransGen.trans h₁ h₂

/-- The others did something. -/
theorem Since.rely
    {s t u : σ}
    (h : M.Since Rely mine p s t)
    (hu : Rely p t u) :
    M.Since Rely mine p s u :=
  Relation.ReflTransGen.tail h (Or.inl hu)

/-- The process did something itself. -/
theorem Since.own
    {s t : σ}
    {e : ε}
    (h : M.Since Rely mine p s t)
    (he : mine e = true) :
    M.Since Rely mine p s (M.apply p e t) :=
  Relation.ReflTransGen.tail h (Or.inr ⟨e, he, rfl⟩)

/-- A larger kind of events. -/
theorem Since.mono
    {more : ε → Bool}
    (hmore : ∀ e, mine e = true → more e = true)
    {s t : σ}
    (h : M.Since Rely mine p s t) :
    M.Since Rely more p s t := by
  refine Relation.ReflTransGen.mono ?_ _ _ h
  rintro a b (hrely | ⟨e, he, rfl⟩)
  · exact Or.inl hrely
  · exact Or.inr ⟨e, hmore e he, rfl⟩

/-- Others that may do more. -/
theorem Since.relax
    {Rely' : Pid → σ → σ → Prop}
    (hrely : ∀ s t, Rely p s t → Rely' p s t)
    {s t : σ}
    (h : M.Since Rely mine p s t) :
    M.Since Rely' mine p s t := by
  refine Relation.ReflTransGen.mono ?_ _ _ h
  intro a b hab
  exact hab.imp_left (hrely a b)

/-- What neither the others nor these events change is as it was. -/
theorem Since.induct
    {Q : σ → Prop}
    (hrely : ∀ t u, Q t → Rely p t u → Q u)
    (hown : ∀ t e, Q t → mine e = true → Q (M.apply p e t))
    {s t : σ}
    (h : M.Since Rely mine p s t)
    (hs : Q s) :
    Q t := by
  induction h with
  | refl => exact hs
  | tail _ hstep ih =>
      rcases hstep with hothers | ⟨e, he, rfl⟩
      · exact hrely _ _ ih hothers
      · exact hown _ e ih he

end Since

/-- Every call ends with the first of these events. -/
theorem ended_of_emits
    {init : σ → Prop}
    {last : ε → Bool}
    (hstart : ∀ r, (start r).EndsOn last)
    {w w' : World σ (ρ × Script σ κ ε)}
    (hw : ((M.calls start).system init).Reachable G w)
    {p : Pid}
    {r : ρ}
    {e : ε}
    (he : M.Emits start G w p r e w')
    (hlast : last e = true) :
    w'.procs p = none := by
  have hends : Program.Holds (fun _ => True)
      (fun _ _ (c : ρ × Script σ κ ε) => c.2.EndsOn last) w := by
    have outline : Program.Outline (M.calls start) init G (fun _ => True)
        (fun _ _ (c : ρ × Script σ κ ε) => c.2.EndsOn last) := by
      refine
        { init := fun _ _ => trivial
          spawn := fun w p r _ _ _ => hstart r
          act := ?_
          crash := fun w p l _ _ => ⟨trivial, fun _ _ _ _ hm => hm⟩
          env := fun w x s' _ _ _ => ⟨trivial, fun _ _ _ hm => hm⟩ }
      intro w p k c s' c' hw _ hc hact
      refine ⟨trivial, ?_, fun _ _ _ _ hm => hm⟩
      intro m hm
      obtain ⟨⟨t, l⟩, hstep, heq⟩ := Option.map_eq_some_iff.mp hact
      obtain ⟨rfl, rfl⟩ := Prod.mk.inj heq
      obtain ⟨l', hl', rfl⟩ := Option.map_eq_some_iff.mp hm
      have hnow := hw.local_ p c hc
      obtain ⟨ready, emit, next, hscript, _, _, _, rfl⟩ := Discipline.act_cases hstep
      rw [hscript] at hnow
      exact (hnow k w.shared).2.remains hl'
    exact outline.sound hw
  obtain ⟨k, l, hl, hevent, _, hx⟩ := he
  obtain ⟨r', ready, emit, next, hl', hready, rfl⟩ := act_calls hx
  have hnow := hends.local_ p _ hl'
  obtain ⟨rfl, rfl⟩ := Prod.mk.inj (Option.some.inj (hl.symm.trans hl'))
  simp only [Script.event, hready, if_true, Option.some.injEq] at hevent
  rw [World.put_procs_self, (hnow k w.shared).1 (by rw [hevent]; exact hlast)]
  rfl

end Machine

namespace Discipline

variable {σ : Type u} {κ : Type v} {ε : Type w} {ξ : Type x}

/-- A discipline with further contracts. -/
def also (D : Discipline σ ε) (Meets : Pid → σ → ε → Prop) : Discipline σ ε where
  inv := D.inv
  Rely := D.Rely
  allow := D.allow
  Meets p s e := Meets p s e ∧ D.Meets p s e

/-- Two contracts of one script hold together. -/
theorem Safe.and
    {D : Discipline σ ε}
    (D' : Discipline σ ε)
    {M : Machine σ ε ξ}
    (hinv : ∀ s, D.inv s → D'.inv s)
    (hrely : ∀ p s t, D.Rely p s t → D'.Rely p s t)
    (hallow : ∀ p s e, D.allow p s e → D'.allow p s e)
    {p : Pid}
    {l : Script σ κ ε}
    {s : σ}
    (h : D.Safe M p l s)
    (h' : D'.Safe M p l s) :
    (D.also D'.Meets).Safe M p l s := by
  induction l generalizing s with
  | halt => trivial
  | step ready emit next ih =>
      intro t k ht hinvt hready hal
      obtain ⟨hmeets, hrest⟩ := h t k ht hinvt hready hal
      obtain ⟨hmeets', hrest'⟩ :=
        h' t k (hrely p s t ht) (hinv t hinvt) hready (hallow p t _ hal)
      exact ⟨⟨hmeets', hmeets⟩, ih k t hrest hrest'⟩

/-- A contract that holds of every event. -/
theorem Safe.always
    {D : Discipline σ ε}
    {Meets : Pid → σ → ε → Prop}
    (hall : ∀ p s e, Meets p s e)
    {M : Machine σ ε ξ}
    {p : Pid}
    {l : Script σ κ ε}
    {s : σ}
    (h : D.Safe M p l s) :
    (D.also Meets).Safe M p l s := by
  induction l generalizing s with
  | halt => trivial
  | step ready emit next ih =>
      intro t k ht hinvt hready hal
      obtain ⟨hmeets, hrest⟩ := h t k ht hinvt hready hal
      exact ⟨⟨hall _ _ _, hmeets⟩, ih k t hrest⟩

end Discipline

/-- An invariant with the interference it stands, and for every kind of call
the events it is allowed and the contracts it keeps. -/
structure Conduct (σ : Type u) (ε : Type w) (ρ : Type y) where
  inv : σ → Prop
  Rely : Pid → σ → σ → Prop
  allow : ρ → Pid → σ → ε → Prop
  Meets : ρ → Pid → σ → ε → Prop

namespace Conduct

variable {σ : Type u} {κ : Type v} {ε : Type w} {ξ : Type x} {ρ : Type y}

/-- The discipline of one call. -/
def of (C : Conduct σ ε ρ) (r : ρ) : Discipline σ ε where
  inv := C.inv
  Rely := C.Rely
  allow := C.allow r
  Meets := C.Meets r

/-- What one step can do to the shared state. -/
inductive Moves (C : Conduct σ ε ρ) (M : Machine σ ε ξ) : σ → σ → Prop
  | spawn (s : σ) : Moves C M s s
  | event {s : σ} (r : ρ) (p : Pid) (e : ε) :
      C.allow r p s e → C.Meets r p s e → Moves C M s (M.apply p e s)
  | die {s : σ} (p : Pid) : Moves C M s (M.die p s)
  | env {s s' : σ} (x : ξ) : M.env x s = some s' → Moves C M s s'

/-- A machine respects a conduct. -/
structure Sound (C : Conduct σ ε ρ) (M : Machine σ ε ξ) : Prop where
  refl : ∀ p s, C.Rely p s s
  trans : ∀ p s₁ s₂ s₃, C.Rely p s₁ s₂ → C.Rely p s₂ s₃ → C.Rely p s₁ s₃
  event : ∀ r p s e, C.inv s → C.allow r p s e → C.Meets r p s e →
    C.inv (M.apply p e s) ∧ ∀ q, q ≠ p → C.Rely q s (M.apply p e s)
  die : ∀ p s, C.inv s → C.inv (M.die p s) ∧ ∀ q, q ≠ p → C.Rely q s (M.die p s)
  env : ∀ x s s', C.inv s → M.env x s = some s' →
    C.inv s' ∧ ∀ q, C.Rely q s s'

variable
  {C : Conduct σ ε ρ}
  {M : Machine σ ε ξ}
  {start : ρ → Script σ κ ε}
  {init : σ → Prop}
  {admits : Pid → ρ → Prop}

theorem Sound.of
    (hC : C.Sound M)
    (r : ρ) :
    (C.of r).Sound M where
  refl := hC.refl
  trans := hC.trans
  event := hC.event r
  die := hC.die
  env := hC.env

/-- A conduct with further contracts. -/
def also (C : Conduct σ ε ρ) (Meets : ρ → Pid → σ → ε → Prop) : Conduct σ ε ρ where
  inv := C.inv
  Rely := C.Rely
  allow := C.allow
  Meets r p s e := Meets r p s e ∧ C.Meets r p s e

theorem Sound.also
    (hC : C.Sound M)
    (Meets : ρ → Pid → σ → ε → Prop) :
    (C.also Meets).Sound M where
  refl := hC.refl
  trans := hC.trans
  event r p s e hs hallow hmeets := hC.event r p s e hs hallow hmeets.2
  die := hC.die
  env := hC.env

/-- Safe calls give a proof outline. -/
theorem outline
    (hC : C.Sound M)
    (hinit : ∀ s, init s → C.inv s)
    (hstart : ∀ r p s, admits p r → C.inv s → (C.of r).Safe M p (start r) s) :
    Program.Outline (M.calls start) init (M.callPolicy start admits C.allow) C.inv
      (fun p s c => (C.of c.1).Safe M p c.2 s) where
  init := hinit
  spawn w p r hw hG _ := hstart r p w.shared hG hw.shared
  act w p k c s' c' hw hG hc hact := by
    obtain ⟨⟨t, l'⟩, hstep, heq⟩ := Option.map_eq_some_iff.mp hact
    obtain ⟨rfl, rfl⟩ := Prod.mk.inj heq
    obtain ⟨ready, emit, next, hscript, hready, hevent, rfl, rfl⟩ :=
      Discipline.act_cases hstep
    have hallow : C.allow c.1 p w.shared (emit k w.shared) := hG c hc _ hevent
    have hsafe := hw.local_ p c hc
    rw [hscript] at hsafe
    obtain ⟨hmeets, hrest⟩ :=
      hsafe w.shared k (hC.refl p _) hw.shared hready hallow
    obtain ⟨hinv, hrely⟩ := hC.event c.1 p w.shared _ hw.shared hallow hmeets
    refine ⟨hinv, ?_, ?_⟩
    · intro m hm
      obtain ⟨l', hl', rfl⟩ := Option.map_eq_some_iff.mp hm
      exact hrest.remains hl'
    · intro q m hqp _ hm
      exact hm.stable (hC.of m.1) (hrely q hqp)
  crash w p c hw _ := by
    obtain ⟨hinv, hrely⟩ := hC.die p w.shared hw.shared
    refine ⟨hinv, ?_⟩
    intro q m hqp _ hm
    exact hm.stable (hC.of m.1) (hrely q hqp)
  env w x s' hw _ hs := by
    obtain ⟨hinv, hrely⟩ := hC.env x w.shared s' hw.shared hs
    refine ⟨hinv, ?_⟩
    intro q m _ hm
    exact hm.stable (hC.of m.1) (hrely q)

section Runs

variable
  (hC : C.Sound M)
  (hinit : ∀ s, init s → C.inv s)
  (hstart : ∀ r p s, admits p r → C.inv s → (C.of r).Safe M p (start r) s)
include hC hinit hstart

/-- The invariant holds in every reachable state. -/
theorem inv_of_reachable
    {w : World σ (ρ × Script σ κ ε)}
    (hw : ((M.calls start).system init).Reachable
      (M.callPolicy start admits C.allow) w) :
    C.inv w.shared :=
  ((outline hC hinit hstart).sound hw).shared

/-- What a call emits is allowed and meets its contract. -/
theorem emitted
    {w w' : World σ (ρ × Script σ κ ε)}
    (hw : ((M.calls start).system init).Reachable
      (M.callPolicy start admits C.allow) w)
    {p : Pid}
    {r : ρ}
    {e : ε}
    (he : M.Emits start (M.callPolicy start admits C.allow) w p r e w') :
    C.allow r p w.shared e ∧ C.Meets r p w.shared e := by
  have hholds := (outline hC hinit hstart).sound hw
  obtain ⟨k, l, hl, hevent, hG, hx⟩ := he
  obtain ⟨r', ready, emit, next, hl', hready, _⟩ := Machine.act_calls hx
  obtain ⟨rfl, rfl⟩ := Prod.mk.inj (Option.some.inj (hl.symm.trans hl'))
  simp only [Script.event, hready, if_true, Option.some.injEq] at hevent
  subst hevent
  have hallow : C.allow r p w.shared (emit k w.shared) :=
    hG _ hl _ (by simp [Script.event, hready])
  exact ⟨hallow, (hholds.local_ p _ hl w.shared k (hC.refl p _) hholds.shared hready hallow).1⟩

/-- Every step of an interleaving is described by a contract. -/
theorem moves_of_exec
    {w w' : World σ (ρ × Script σ κ ε)}
    {a : Action κ ρ ξ}
    (hw : ((M.calls start).system init).Reachable
      (M.callPolicy start admits C.allow) w)
    (hG : M.callPolicy start admits C.allow w a)
    (hx : (M.calls start).exec w a = some w') :
    C.Moves M w.shared w'.shared := by
  cases a with
  | spawn p r =>
      obtain ⟨_, rfl⟩ := Program.exec_spawn hx
      exact Moves.spawn w.shared
  | act p k =>
      obtain ⟨r, ready, emit, next, hl, hready, heq⟩ := Machine.act_calls hx
      have he : M.Emits start (M.callPolicy start admits C.allow) w p r (emit k w.shared) w' :=
        ⟨k, _, hl, by simp [Script.event, hready], hG, hx⟩
      obtain ⟨hallow, hmeets⟩ := emitted hC hinit hstart hw he
      rw [heq]
      exact Moves.event r p _ hallow hmeets
  | crash p =>
      obtain ⟨c, _, rfl⟩ := Program.exec_crash hx
      exact Moves.die p
  | env x =>
      obtain ⟨s', hs', rfl⟩ := Program.exec_env hx
      exact Moves.env x hs'

/-- What every move keeps survives a run. -/
theorem stable
    {P : σ → Prop}
    (hmoves : ∀ s s', C.inv s → C.inv s' → P s → C.Moves M s s' → P s')
    {w w' : World σ (ρ × Script σ κ ε)}
    {as : List (Action κ ρ ξ)}
    (hw : ((M.calls start).system init).Reachable
      (M.callPolicy start admits C.allow) w)
    (hrun : ((M.calls start).system init).Run
      (M.callPolicy start admits C.allow) w as w')
    (h : P w.shared) :
    P w'.shared := by
  refine Automaton.Run.stable (P := fun v => P v.shared) (I := fun v =>
    ((M.calls start).system init).Reachable (M.callPolicy start admits C.allow) v)
    (fun v hv => hv) ?_ hw hrun h
  intro v a v' hv hv' hG hx hPv
  exact hmoves v.shared v'.shared (inv_of_reachable hC hinit hstart hv)
    (inv_of_reachable hC hinit hstart hv') hPv (moves_of_exec hC hinit hstart hv hG hx)

/-- What holds at the start and is kept by every move holds in every reachable
state. -/
theorem keeps
    {P : σ → Prop}
    (hP : ∀ s, init s → P s)
    (hmoves : ∀ s s', C.inv s → C.inv s' → P s → C.Moves M s s' → P s')
    {w : World σ (ρ × Script σ κ ε)}
    (hw : ((M.calls start).system init).Reachable
      (M.callPolicy start admits C.allow) w) :
    P w.shared := by
  rcases hw with ⟨w₀, as, h₀, hrun⟩
  exact stable hC hinit hstart hmoves (Automaton.Reachable.of_init h₀) hrun (hP _ h₀.1)

end Runs
end Conduct
end Core
end Yca
