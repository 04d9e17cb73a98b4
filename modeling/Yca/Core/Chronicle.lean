import Yca.Core.Refinement

/-!
# Recorded calls under interference

What a call promises of an event may depend on where it stepped before, and on
what the others can have done since: a value it read under a lock is still there
when it writes.  `Follows` is followed through a script under interference, as
`Safe` is, but its contracts see the record of the call.
`Conduct.records_followed` gives them in every interleaving.

The other rule here needs no script: a relation that every step keeps to its
right holds between where a process stepped and where the run is.
-/

namespace Yca
namespace Core

universe u v w x y

namespace Discipline

variable {σ : Type u} {κ : Type v} {ε : Type w} {ξ : Type x}

/-- A script meets contracts that mention where it stepped before, whatever the
others do in between. -/
def Follows
    (D : Discipline σ ε)
    (M : Machine σ ε ξ)
    (p : Pid)
    (Tells : List σ → σ → ε → Prop) :
    List σ → Script σ κ ε → σ → Prop
  | _, .halt, _ => True
  | past, .step ready emit next, s =>
      ∀ t k, D.Rely p s t → D.inv t → ready k t = true → D.allow p t (emit k t) →
        Tells past t (emit k t) ∧
          Follows D M p Tells (past ++ [t]) (next k t) (M.apply p (emit k t) t)

variable
  {D : Discipline σ ε} {M : Machine σ ε ξ} {p : Pid} {Tells : List σ → σ → ε → Prop}

/-- Interference does not make a script stray. -/
theorem Follows.stable
    (hD : D.Sound M)
    {past : List σ}
    {l : Script σ κ ε}
    {s t : σ}
    (h : D.Follows M p Tells past l s)
    (ht : D.Rely p s t) :
    D.Follows M p Tells past l t := by
  cases l with
  | halt => trivial
  | step ready emit next =>
      intro u k hu
      exact h u k (hD.trans p s t u ht hu)

theorem Follows.remains
    {past : List σ}
    {l m : Script σ κ ε}
    {s : σ}
    (h : D.Follows M p Tells past l s)
    (hm : l.remains = some m) :
    D.Follows M p Tells past m s := by
  rw [Script.remains_eq hm]
  exact h

/-- What is told of every event. -/
theorem Follows.always
    (hall : ∀ past s e, Tells past s e)
    (past : List σ)
    (l : Script σ κ ε)
    (s : σ) :
    D.Follows M p Tells past l s := by
  induction l generalizing past s with
  | halt => trivial
  | step ready emit next ih =>
      intro t k _ _ _ _
      exact ⟨hall past t _, ih k t _ _⟩

end Discipline

namespace Machine

variable
  {σ : Type u} {κ : Type v} {ε : Type w} {ξ : Type x} {ρ : Type y}
  {M : Machine σ ε ξ}
  {start : ρ → Script σ κ ε}
  {w w' : World σ (Recorded σ ρ (Script σ κ ε))}
  {p : Pid}
  {k : κ}
  {c : Recorded σ ρ (Script σ κ ε)}

/-- In this step process `p`, with record `c`, emits `e`. -/
def RecordEmits
    (M : Machine σ ε ξ)
    (start : ρ → Script σ κ ε)
    (G : (M.records start).Guarded)
    (w : World σ (Recorded σ ρ (Script σ κ ε)))
    (p : Pid)
    (c : Recorded σ ρ (Script σ κ ε))
    (e : ε)
    (w' : World σ (Recorded σ ρ (Script σ κ ε))) : Prop :=
  ∃ k,
    w.procs p = some c ∧
    c.rest.event k w.shared = some e ∧
    G w (.act p k) ∧
    (M.records start).exec w (.act p k) = some w'

/-- A step in which an event is emitted is a step of a run. -/
theorem RecordEmits.step
    {G : (M.records start).Guarded}
    {e : ε}
    (h : M.RecordEmits start G w p c e w') :
    ∃ k, G w (.act p k) ∧ (M.records start).exec w (.act p k) = some w' := by
  obtain ⟨k, _, _, hG, hx⟩ := h
  exact ⟨k, hG, hx⟩

/-- A step of a process emits an event of its call. -/
theorem RecordEmits.of_exec
    {G : (M.records start).Guarded}
    (hc : w.procs p = some c)
    (hG : G w (.act p k))
    (hx : (M.records start).exec w (.act p k) = some w') :
    ∃ e, M.RecordEmits start G w p c e w' := by
  obtain ⟨c', s', d, hc', hact, _⟩ := Program.exec_act hx
  obtain rfl : c = c' := Option.some.inj (hc.symm.trans hc')
  obtain ⟨ready, emit, next, hscript, hready, _, _⟩ := act_records hact
  exact ⟨emit k w.shared, k, hc, by simp [hscript, Script.event, hready], hG, hx⟩

/-- A step of a recorded call is a step of the call. -/
theorem RecordEmits.forget
    {G : (M.calls start).Guarded}
    {e : ε}
    (h : M.RecordEmits start (Guard.through Recorded.forget G) w p c e w') :
    M.Emits start G (w.map Recorded.forget) p c.call e (w'.map Recorded.forget) := by
  obtain ⟨k, hc, he, hG, hx⟩ := h
  refine ⟨k, c.rest, ?_, he, hG, ?_⟩
  · rw [World.map_procs, hc]
    rfl
  · rw [(M.records_forget start).exec, hx]
    rfl

/-- A relation that every step keeps holds between the states in which a process
stepped and the state of the run. -/
theorem records_past
    {init : σ → Prop}
    {G : (M.records start).Guarded}
    {R : σ → σ → Prop}
    (hrefl : ∀ s, R s s)
    (hevent : ∀ s t q e, R s t → R s (M.apply q e t))
    (hdie : ∀ s t q, R s t → R s (M.die q t))
    (henv : ∀ s t u x, R s t → M.env x t = some u → R s u)
    (hw : ((M.records start).system init).Reachable G w)
    (hc : w.procs p = some c)
    {s : σ}
    (hs : s ∈ c.past) :
    R s w.shared := by
  have outline : Program.Outline (M.records start) init G (fun _ => True)
      (fun _ t d => ∀ s ∈ d.past, R s t) := by
    refine
      { init := fun _ _ => trivial
        spawn := fun _ _ _ _ _ _ => ?_
        act := ?_
        crash := fun w q _ _ _ => ⟨trivial, fun _ _ _ _ hm s hs => hdie s _ q (hm s hs)⟩
        env := fun w x _ _ _ hx => ⟨trivial, fun _ _ _ hm s hs => henv s _ _ x (hm s hs) hx⟩ }
    · intro s hs
      simp [records, Program.recorded] at hs
    · intro w q k d s' d' hw _ hd hact
      obtain ⟨ready, emit, next, _, _, rfl, rfl⟩ := act_records hact
      refine ⟨trivial, ?_, fun _ _ _ _ hm s hs => hevent s _ q _ (hm s hs)⟩
      intro m hm s hs
      obtain ⟨l, _, rfl⟩ := Option.map_eq_some_iff.mp hm
      refine hevent s _ q _ ?_
      rcases List.mem_append.mp hs with hold | hlast
      · exact hw.local_ q d hd s hold
      · rw [List.mem_singleton.mp hlast]
        exact hrefl _
  exact (outline.sound hw).local_ p c hc s hs

end Machine

namespace Conduct

variable
  {σ : Type u} {κ : Type v} {ε : Type w} {ξ : Type x} {ρ : Type y}
  {C : Conduct σ ε ρ}
  {M : Machine σ ε ξ}
  {start : ρ → Script σ κ ε}
  {init : σ → Prop}
  {admits : Pid → ρ → Prop}

/-- What a guarded step of a recorded call emits is allowed to the call. -/
theorem allow_of_event
    {w : World σ (Recorded σ ρ (Script σ κ ε))}
    {p : Pid}
    {k : κ}
    {c : Recorded σ ρ (Script σ κ ε)}
    {e : ε}
    (hG : Guard.through Recorded.forget (M.callPolicy start admits C.allow) w (.act p k))
    (hc : w.procs p = some c)
    (he : c.rest.event k w.shared = some e) :
    C.allow c.call p w.shared e := by
  refine hG (c.call, c.rest) ?_ e he
  rw [World.map_procs, hc]
  rfl

/-- Recorded calls keep to their contracts, those of their past among them. -/
theorem followed_outline
    (hC : C.Sound M)
    (hinit : ∀ s, init s → C.inv s)
    (hstart : ∀ r p s, admits p r → C.inv s → (C.of r).Safe M p (start r) s)
    {Tells : ρ → Pid → List σ → σ → ε → Prop}
    (hfollows : ∀ r p s, admits p r → C.inv s →
      (C.of r).Follows M p (Tells r p) [] (start r) s) :
    Program.Outline (M.records start) init
      (Guard.through Recorded.forget (M.callPolicy start admits C.allow)) C.inv
      (fun p s c => (C.of c.call).Safe M p c.rest s ∧
        (C.of c.call).Follows M p (Tells c.call p) c.past c.rest s) := by
  refine
    { init := hinit
      spawn := fun w p r hw hG _ =>
        ⟨hstart r p w.shared hG hw.shared, hfollows r p w.shared hG hw.shared⟩
      act := ?_
      crash := ?_
      env := ?_ }
  · intro w p k c s' c' hw hG hc hact
    obtain ⟨ready, emit, next, hscript, hready, rfl, rfl⟩ := Machine.act_records hact
    have hallow : C.allow c.call p w.shared (emit k w.shared) :=
      allow_of_event hG hc (by simp [hscript, Script.event, hready])
    obtain ⟨hsafe, hpast⟩ := hw.local_ p c hc
    rw [hscript] at hsafe hpast
    obtain ⟨hmeets, hsafe'⟩ := hsafe w.shared k (hC.refl p _) hw.shared hready hallow
    obtain ⟨_, hpast'⟩ := hpast w.shared k (hC.refl p _) hw.shared hready hallow
    obtain ⟨hinv, hrely⟩ := hC.event c.call p w.shared _ hw.shared hallow hmeets
    refine ⟨hinv, ?_, ?_⟩
    · intro m hm
      obtain ⟨l, hl, rfl⟩ := Option.map_eq_some_iff.mp hm
      exact ⟨hsafe'.remains hl, hpast'.remains hl⟩
    · intro q m hqp _ hm
      exact ⟨hm.1.stable (hC.of m.call) (hrely q hqp),
        hm.2.stable (hC.of m.call) (hrely q hqp)⟩
  · intro w p c hw _
    obtain ⟨hinv, hrely⟩ := hC.die p w.shared hw.shared
    refine ⟨hinv, ?_⟩
    intro q m hqp _ hm
    exact ⟨hm.1.stable (hC.of m.call) (hrely q hqp), hm.2.stable (hC.of m.call) (hrely q hqp)⟩
  · intro w x s' hw _ hs
    obtain ⟨hinv, hrely⟩ := hC.env x w.shared s' hw.shared hs
    refine ⟨hinv, ?_⟩
    intro p m _ hm
    exact ⟨hm.1.stable (hC.of m.call) (hrely p), hm.2.stable (hC.of m.call) (hrely p)⟩

/-- What a recorded call emits is told of it in every interleaving. -/
theorem records_followed
    (hC : C.Sound M)
    (hinit : ∀ s, init s → C.inv s)
    (hstart : ∀ r p s, admits p r → C.inv s → (C.of r).Safe M p (start r) s)
    {Tells : ρ → Pid → List σ → σ → ε → Prop}
    (hfollows : ∀ r p s, admits p r → C.inv s →
      (C.of r).Follows M p (Tells r p) [] (start r) s)
    {w w' : World σ (Recorded σ ρ (Script σ κ ε))}
    (hw : ((M.records start).system init).Reachable
      (Guard.through Recorded.forget (M.callPolicy start admits C.allow)) w)
    {p : Pid}
    {c : Recorded σ ρ (Script σ κ ε)}
    {e : ε}
    (he : M.RecordEmits start
      (Guard.through Recorded.forget (M.callPolicy start admits C.allow)) w p c e w') :
    Tells c.call p c.past w.shared e := by
  obtain ⟨k, hc, hevent, hG, _⟩ := he
  obtain ⟨hshared, hlocal⟩ := (followed_outline hC hinit hstart hfollows).sound hw
  have hallow := allow_of_event hG hc hevent
  obtain ⟨_, hpast⟩ := hlocal p c hc
  cases hrest : c.rest with
  | halt => simp [hrest, Script.event] at hevent
  | step ready emit next =>
      rw [hrest] at hpast hevent
      simp only [Script.event] at hevent
      split at hevent
      · rename_i hready
        obtain rfl := Option.some.inj hevent
        exact (hpast w.shared k (hC.refl p _) hshared hready hallow).1
      · simp at hevent

end Conduct

end Core
end Yca
