import Yca.Core.Script

/-!
# Recorded calls

The processes of a machine with what each was started with and the states in
which it took its steps so far, oldest first.  The record is of the process
alone, so what a script does with what it read can be stated without any
assumption about the others: `Notes` follows a script over arbitrary states, and
`records_hold` turns it into a fact about every interleaving.  `Leads` says what
is left of a script once it has stepped in given states.
-/

namespace Yca
namespace Core

universe u v w x y

/-- A process with its record. -/
structure Recorded (σ : Type u) (ρ : Type x) (π : Type v) where
  /-- What it was started with. -/
  call : ρ
  /-- Where it stepped, oldest first. -/
  past : List σ
  /-- What is left of it. -/
  rest : π

namespace Program

variable {σ : Type u} {π : Type v} {κ : Type w} {ρ : Type x} {ε : Type y}

/-- The processes of a program, each with its record. -/
def recorded (P : Program σ π κ ρ ε) : Program σ (Recorded σ ρ π) κ ρ ε where
  start r := ⟨r, [], P.start r⟩
  act p k s c := (P.act p k s c.rest).map fun o =>
    (o.1, o.2.map fun l => ⟨c.call, c.past ++ [s], l⟩)
  crash p c s := P.crash p c.rest s
  env := P.env

end Program

namespace Script

variable {σ : Type u} {κ : Type v} {ε : Type w}

/-- Wherever a script steps, its events meet a contract that may mention where
it stepped before. -/
def Notes (Meets : List σ → σ → ε → Prop) : List σ → Script σ κ ε → Prop
  | _, halt => True
  | past, step ready emit next =>
      ∀ k s, ready k s = true →
        Meets past s (emit k s) ∧ Notes Meets (past ++ [s]) (next k s)

theorem Notes.remains
    {Meets : List σ → σ → ε → Prop}
    {past : List σ}
    {l m : Script σ κ ε}
    (h : Notes Meets past l)
    (hm : l.remains = some m) :
    Notes Meets past m := by
  rw [remains_eq hm]
  exact h

/-- A weaker contract. -/
theorem Notes.mono
    {Meets Meets' : List σ → σ → ε → Prop}
    (hmeets : ∀ past s e, Meets past s e → Meets' past s e)
    {past : List σ}
    {l : Script σ κ ε}
    (h : Notes Meets past l) :
    Notes Meets' past l := by
  induction l generalizing past with
  | halt => trivial
  | step ready emit next ih =>
      intro k s hready
      obtain ⟨hnow, hrest⟩ := h k s hready
      exact ⟨hmeets past s _ hnow, ih k s hrest⟩

/-- A contract that follows from what a script emits once it has a certain past. -/
theorem Notes.onward
    {P : ε → Prop}
    {Meets : List σ → σ → ε → Prop}
    {start past : List σ}
    {l : Script σ κ ε}
    (h : Notes (fun _ _ e => P e) past l)
    (hmeets : ∀ past s e, start <+: past → P e → Meets past s e)
    (hpast : start <+: past) :
    Notes Meets past l := by
  induction l generalizing past with
  | halt => trivial
  | step ready emit next ih =>
      intro k s hready
      obtain ⟨hnow, hrest⟩ := h k s hready
      exact ⟨hmeets past s _ hpast hnow,
        ih k s hrest (hpast.trans (List.prefix_append past [s]))⟩

/-- Stepping in these states a script comes to what is left. -/
inductive Leads : Script σ κ ε → List σ → Script σ κ ε → Prop
  | here (l : Script σ κ ε) : Leads l [] l
  | there
      {ready : κ → σ → Bool}
      {emit : κ → σ → ε}
      {next : κ → σ → Script σ κ ε}
      {past : List σ}
      {m : Script σ κ ε}
      (k : κ)
      (s : σ)
      (hready : ready k s = true)
      (hrest : Leads (next k s) past m) :
      Leads (.step ready emit next) (s :: past) m

/-- One step more. -/
theorem Leads.step
    {l : Script σ κ ε}
    {past : List σ}
    {ready : κ → σ → Bool}
    {emit : κ → σ → ε}
    {next : κ → σ → Script σ κ ε}
    (h : Leads l past (.step ready emit next))
    {k : κ}
    {s : σ}
    (hready : ready k s = true) :
    Leads l (past ++ [s]) (next k s) := by
  generalize hm : Script.step ready emit next = m at h
  induction h with
  | here l =>
      subst hm
      exact .there k s hready (.here _)
  | there k' s' hready' _ ih => exact .there k' s' hready' (ih hm)

/-- What a script notes it notes to its end. -/
theorem Notes.led
    {Meets : List σ → σ → ε → Prop}
    {past more : List σ}
    {l m : Script σ κ ε}
    (h : Notes Meets past l)
    (hled : Leads l more m) :
    Notes Meets (past ++ more) m := by
  induction hled generalizing past with
  | here l => simpa using h
  | there k s hready _ ih => simpa using ih (h k s hready).2

theorem Notes.event
    {Meets : List σ → σ → ε → Prop}
    {past : List σ}
    {l : Script σ κ ε}
    (h : Notes Meets past l)
    {k : κ}
    {s : σ}
    {e : ε}
    (he : l.event k s = some e) :
    Meets past s e := by
  cases l with
  | halt => simp [Script.event] at he
  | step ready emit next =>
      simp only [Script.event] at he
      split at he
      · rename_i hready
        rw [← Option.some.inj he]
        exact (h k s hready).1
      · simp at he

/-- A script that is safe whatever the others do. -/
theorem notes_of_safe
    {ξ : Type x}
    {D : Discipline σ ε}
    {M : Machine σ ε ξ}
    {p : Pid}
    (hrely : ∀ s t, D.Rely p s t)
    (hinv : ∀ s, D.inv s)
    (hallow : ∀ s e, D.allow p s e)
    {s : σ}
    {l : Script σ κ ε}
    (h : D.Safe M p l s)
    (past : List σ) :
    Notes (fun _ t e => D.Meets p t e) past l := by
  induction l generalizing s past with
  | halt => trivial
  | step ready emit next ih =>
      intro k t hready
      obtain ⟨hmeets, hrest⟩ := h t k (hrely s t) (hinv t) hready (hallow t _)
      exact ⟨hmeets, ih k t hrest _⟩

end Script

namespace Machine

variable {σ : Type u} {κ : Type v} {ε : Type w} {ξ : Type x} {ρ : Type y}

/-- The recorded calls of a machine. -/
def records (M : Machine σ ε ξ) (start : ρ → Script σ κ ε) :
    Program σ (Recorded σ ρ (Script σ κ ε)) κ ρ ξ :=
  (M.program start).recorded

/-- Every step of a run emits an event its call is allowed, given its record. -/
def recordPolicy
    (M : Machine σ ε ξ)
    (start : ρ → Script σ κ ε)
    (allow : ρ → List σ → σ → ε → Prop) : (M.records start).Guarded
  | w, .act p k =>
      ∀ c ∈ w.procs p, ∀ e ∈ c.rest.event k w.shared, allow c.call c.past w.shared e
  | _, _ => True

instance
    (M : Machine σ ε ξ)
    (start : ρ → Script σ κ ε)
    (allow : ρ → List σ → σ → ε → Prop)
    [∀ r past s e, Decidable (allow r past s e)]
    (w : World σ (Recorded σ ρ (Script σ κ ε)))
    (a : Action κ ρ ξ) :
    Decidable (M.recordPolicy start allow w a) :=
  match a with
  | .spawn _ _ => inferInstanceAs (Decidable True)
  | .act p k =>
      inferInstanceAs (Decidable
        (∀ c ∈ w.procs p, ∀ e ∈ c.rest.event k w.shared, allow c.call c.past w.shared e))
  | .crash _ => inferInstanceAs (Decidable True)
  | .env _ => inferInstanceAs (Decidable True)

/-- A step of a recorded call emits one event. -/
theorem act_records
    {M : Machine σ ε ξ}
    {start : ρ → Script σ κ ε}
    {p : Pid}
    {k : κ}
    {s s' : σ}
    {c : Recorded σ ρ (Script σ κ ε)}
    {c' : Option (Recorded σ ρ (Script σ κ ε))}
    (h : (M.records start).act p k s c = some (s', c')) :
    ∃ ready emit next,
      c.rest = .step ready emit next ∧
      ready k s = true ∧
      s' = M.apply p (emit k s) s ∧
      c' = (next k s).remains.map fun l => ⟨c.call, c.past ++ [s], l⟩ := by
  obtain ⟨⟨t, l⟩, hstep, heq⟩ := Option.map_eq_some_iff.mp h
  obtain ⟨rfl, rfl⟩ := Prod.mk.inj heq
  obtain ⟨ready, emit, next, hscript, hready, _, rfl, rfl⟩ := Discipline.act_cases hstep
  exact ⟨ready, emit, next, hscript, hready, rfl, rfl⟩

variable
  {M : Machine σ ε ξ}
  {start : ρ → Script σ κ ε}
  {init : σ → Prop}
  {Meets : ρ → List σ → σ → ε → Prop}
  {allow : ρ → List σ → σ → ε → Prop}

/-- What the events keep, each with the contract its call notes, holds in every
reachable state, it held wherever a process stepped, and every process goes on as it
notes. -/
theorem records_hold
    (hnotes : ∀ r, (start r).Notes (Meets r) [])
    {P : σ → Prop}
    (hinit : ∀ s, init s → P s)
    (hevent : ∀ r past p s e, P s → (∀ t ∈ past, P t) → allow r past s e → Meets r past s e →
      P (M.apply p e s))
    (hdie : ∀ p s, P s → P (M.die p s))
    (henv : ∀ x s s', P s → M.env x s = some s' → P s')
    {w : World σ (Recorded σ ρ (Script σ κ ε))}
    (hw : ((M.records start).system init).Reachable (M.recordPolicy start allow) w) :
    Program.Holds P (fun _ _ c => c.rest.Notes (Meets c.call) c.past ∧ ∀ t ∈ c.past, P t) w := by
  have outline : Program.Outline (M.records start) init (M.recordPolicy start allow) P
      (fun _ _ c => c.rest.Notes (Meets c.call) c.past ∧ ∀ t ∈ c.past, P t) := by
    refine
      { init := hinit
        spawn := fun _ _ r _ _ _ => ⟨hnotes r, by simp [Program.recorded, records]⟩
        act := ?_
        crash := fun w p _ hw _ => ⟨hdie p _ hw.shared, fun _ _ _ _ hm => hm⟩
        env := fun w x s' hw _ hs => ⟨henv x _ s' hw.shared hs, fun _ _ _ hm => hm⟩ }
    intro w p k c s' c' hw hG hc hact
    obtain ⟨ready, emit, next, hscript, hready, rfl, rfl⟩ := act_records hact
    have hallow := hG c hc (emit k w.shared) (by simp [hscript, Script.event, hready])
    obtain ⟨hnow, hpast⟩ := hw.local_ p c hc
    rw [hscript] at hnow
    obtain ⟨hmeets, hrest⟩ := hnow k w.shared hready
    refine ⟨hevent _ _ p _ _ hw.shared hpast hallow hmeets, ?_, fun _ _ _ _ hm => hm⟩
    intro m hm
    obtain ⟨l, hl, rfl⟩ := Option.map_eq_some_iff.mp hm
    refine ⟨hrest.remains hl, fun t ht => ?_⟩
    rcases List.mem_append.mp ht with hold | hnew
    · exact hpast t hold
    · rw [List.mem_singleton.mp hnew]
      exact hw.shared
  exact outline.sound hw

/-- What a recorded call emits meets the contract it notes. -/
theorem records_noted
    (hnotes : ∀ r, (start r).Notes (Meets r) [])
    {w : World σ (Recorded σ ρ (Script σ κ ε))}
    (hw : ((M.records start).system init).Reachable (M.recordPolicy start allow) w)
    {p : Pid}
    {k : κ}
    {c : Recorded σ ρ (Script σ κ ε)}
    {e : ε}
    (hc : w.procs p = some c)
    (he : c.rest.event k w.shared = some e) :
    Meets c.call c.past w.shared e := by
  have hholds := records_hold (P := fun _ => True) hnotes (fun _ _ => trivial)
    (fun _ _ _ _ _ _ _ _ _ => trivial) (fun _ _ _ => trivial) (fun _ _ _ _ _ => trivial) hw
  exact (hholds.local_ p c hc).1.event he

/-- A process has come to where it is by the steps on its record. -/
theorem records_led
    {G : (M.records start).Guarded}
    {w : World σ (Recorded σ ρ (Script σ κ ε))}
    (hw : ((M.records start).system init).Reachable G w)
    {p : Pid}
    {c : Recorded σ ρ (Script σ κ ε)}
    (hc : w.procs p = some c) :
    (start c.call).Leads c.past c.rest := by
  have outline : Program.Outline (M.records start) init G (fun _ => True)
      (fun _ _ c => (start c.call).Leads c.past c.rest) := by
    refine
      { init := fun _ _ => trivial
        spawn := fun _ _ r _ _ _ => .here _
        act := ?_
        crash := fun w p _ _ _ => ⟨trivial, fun _ _ _ _ hm => hm⟩
        env := fun w x _ _ _ _ => ⟨trivial, fun _ _ _ hm => hm⟩ }
    intro w p k c s' c' hw _ hc hact
    obtain ⟨ready, emit, next, hscript, hready, rfl, rfl⟩ := act_records hact
    have hnow := hw.local_ p c hc
    rw [hscript] at hnow
    refine ⟨trivial, ?_, fun _ _ _ _ hm => hm⟩
    intro m hm
    obtain ⟨l, hl, rfl⟩ := Option.map_eq_some_iff.mp hm
    rw [Script.remains_eq hl]
    exact hnow.step hready
  exact (outline.sound hw).local_ p c hc

end Machine

end Core
end Yca
