import Yca.Acme.Authorizations
import Yca.Acme.Statements

/-!
# Orders over whole runs

`handleChallenge` sets an order `ready` after it has read the order's
authorizations, without looking at the order again.  A handler that pauses
between the two re-opens an order that was finalized meanwhile.

The outline below shows that this is the only way: in every run in which that
one statement finds the order still `pending` or `ready`, an order that is
`valid` or `invalid` keeps its status and its certificate, and the CA is asked
at most once for each order.
-/

namespace Yca
namespace Acme

open Yca.Core

/-- How often the CA was asked on behalf of an order. -/
def asks (o : Nat) (log : List Event) : Nat :=
  log.count (.asked o)

/-- The order can still be offered for issuance. -/
def OrderStatus.Open (st : OrderStatus) : Prop :=
  st = .pending ∨ st = .ready

instance (st : OrderStatus) : Decidable st.Open := by
  unfold OrderStatus.Open
  infer_instance

/-- A run in which `SetOrderStatus(..., "ready")` is executed only on orders
that are still open. -/
def ReadyOnlyOpen : Guard (World State Handler) (Action Choice Request Outside)
  | w, .act p .ok =>
      match w.procs p with
      | some (.challenge (.ready _ a)) =>
          ∀ r ∈ w.shared.db.orders, r.id = a.orderId → r.status.Open
      | _ => True
  | w, a => Presents false w a

/-- Issuance is claimed once for each order, and asked for once. -/
structure Issuance (s : State) : Prop where
  ids : ∀ o p, Event.orderClaimed o p ∈ s.log → o < s.nextId
  unclaimed : ∀ r ∈ s.db.orders, r.status.Open → ∀ p, Event.orderClaimed r.id p ∉ s.log
  once : ∀ o p q, Event.orderClaimed o p ∈ s.log → Event.orderClaimed o q ∈ s.log → p = q
  asked : ∀ o, Event.asked o ∈ s.log → ∃ p, Event.orderClaimed o p ∈ s.log
  count : ∀ o, asks o s.log ≤ 1
  certId : ∀ r ∈ s.db.orders, r.status ≠ .valid → r.certId = none

/-- The winner of `ClaimOrder` has the order in `processing`. -/
structure Holder (p : Pid) (s : State) (o : Nat) : Prop where
  claimed : Event.orderClaimed o p ∈ s.log
  processing : ∀ r ∈ s.db.orders, r.id = o → r.status = .processing

/-- What a finalize handler knows of its order. -/
def Finalize.Holding (p : Pid) (s : State) : Finalize → Prop
  | .issue _ o _ => Holder p s o.id ∧ Event.asked o.id ∉ s.log
  | .refused o _ => Holder p s o.id
  | .certMeta _ o _ _ _ => Holder p s o.id
  | .store o _ _ => Holder p s o.id
  | .finish o _ _ => Holder p s o.id
  | _ => True

/-- What a handler knows of the order it is issuing for. -/
def Holding (p : Pid) (s : State) : Handler → Prop
  | .finalize pc => pc.Holding p s
  | _ => True

/-- The one statement that writes `ready` finds an open order. -/
def ReadyIsOpen (h : Handler) (s : State) : Prop :=
  ∀ c a, h = .challenge (.ready c a) →
    ∀ r ∈ s.db.orders, r.id = a.orderId → r.status.Open

section Step

variable {p q : Pid} {h : Handler} {s s' : State}

/-- An order with an authorization that is not valid has not come far. -/
theorem not_earned_of_lost
    (hs : Inv false s)
    {r : Order}
    (hr : r ∈ s.db.orders)
    {authz c : Nat}
    (hev : Event.claimed authz c r.id p ∈ s.log)
    (hrow : ∀ a ∈ s.db.authzs, a.id = authz → a.status ≠ .valid) :
    ¬ r.status.Earned := by
  intro hearned
  rcases hs.claims.kept _ _ _ _ hev r hr rfl with ⟨a, ha, hid⟩
  have horder := (hs.claims.used _ _ _ _ hev a ha hid).1
  exact hrow a ha hid ((hs.progress.covered r hr hearned).valid a ha horder)

/-- The row of an order in `processing` moves only in the hands of the one
handler that claimed it. -/
theorem OrderMove.held
    (hs : Inv false s)
    {r r' : Order}
    (hr : r ∈ s.db.orders)
    (hm : OrderMove false q h s s' r r')
    (hopen : ReadyIsOpen h s)
    (hheld : Holding q s h)
    (hother : Event.orderClaimed r.id q ∉ s.log)
    (hprocessing : r.status = .processing) :
    r' = r := by
  cases hm with
  | same => rfl
  | failed hev hrow =>
      have hearned : r.status.Earned := Or.inr (Or.inl hprocessing)
      exact absurd hearned (not_earned_of_lost hs hr hev hrow)
  | ready hh horder _ =>
      have hst := hopen _ _ hh r hr horder.symm
      simp [OrderStatus.Open, hprocessing] at hst
  | claim hready _ => simp [hprocessing] at hready
  | refused hh hid =>
      subst hh
      have hholder : Holder q s _ := hheld
      exact absurd (hid ▸ hholder.claimed) hother
  | finish hh hid _ =>
      subst hh
      have hholder : Holder q s _ := hheld
      exact absurd (hid ▸ hholder.claimed) hother

theorem Holder.stable
    (hs : Inv false s)
    (hi : Issuance s)
    (hc : Change false q h s s')
    (hopen : ReadyIsOpen h s)
    (hheld : Holding q s h)
    (hqp : q ≠ p)
    {o : Nat}
    (hf : Holder p s o) :
    Holder p s' o where
  claimed := hc.log _ hf.claimed
  processing r' hr' hid := by
    rcases hc.orders.row r' hr' with ⟨r, hr, hm⟩ | hnew
    · have hrid : r.id = o := hm.fixed.1.symm.trans hid
      have hprocessing := hf.processing r hr hrid
      have hother : Event.orderClaimed r.id q ∉ s.log := by
        intro hev
        exact hqp (hi.once _ _ _ (hrid ▸ hev) hf.claimed)
      rw [hm.held hs hr hopen hheld hother hprocessing]
      exact hprocessing
    · have hlt := hi.ids _ _ hf.claimed
      have := hnew.id
      omega

/-- The claimant's knowledge survives its own steps on other tables. -/
theorem Holder.own
    (hc : Change false p h s s')
    (horders : s'.db.orders = s.db.orders)
    {o : Nat}
    (hf : Holder p s o) :
    Holder p s' o where
  claimed := hc.log _ hf.claimed
  processing := by
    rw [horders]
    exact hf.processing

/-- Asking is recorded once: the handler that asks has not asked before. -/
theorem asks_change
    (hi : Issuance s)
    (hc : Change false q h s s')
    (hheld : Holding q s h)
    (o : Nat) :
    asks o s'.log ≤ 1 := by
  rcases hc.history with ⟨events, hlog, hnew⟩
  have hcount : asks o s'.log = asks o s.log + events.count (.asked o) := by
    simp [asks, hlog]
  by_cases hmem : Event.asked o ∈ events
  · generalize hx : Event.asked o = ev at hmem
    have hev := hnew ev hmem
    cases hev with
    | asked hh hlog' =>
        have hevents := List.append_cancel_left (hlog.symm.trans hlog')
        simp only [Event.asked.injEq] at hx
        subst hx hh
        have hnone : asks _ s.log = 0 := List.count_eq_zero.mpr hheld.2
        simp [hcount, hnone, hevents]
    | _ => simp at hx
  · have hzero : events.count (.asked o) = 0 := List.count_eq_zero.mpr hmem
    have := hi.count o
    omega

theorem Issuance.change
    (hs : Inv false s)
    (hi : Issuance s)
    (hc : Change false q h s s')
    (hopen : ReadyIsOpen h s)
    (hheld : Holding q s h) :
    Issuance s' where
  ids o p hev := by
    rcases hc.event _ hev with hold | hnew
    · exact Nat.lt_of_lt_of_le (hi.ids o p hold) hc.nextId
    · cases hnew with
      | orderClaimed hr _ _ _ => exact Nat.lt_of_lt_of_le (hs.ids.order _ hr) hc.nextId
  unclaimed r' hr' hst p hev := by
    rcases hc.event _ hev with hold | hnew
    · rcases hc.orders.row r' hr' with ⟨r, hr, hm⟩ | hnew
      · rw [hm.fixed.1] at hold
        cases hm with
        | same => exact hi.unclaimed r' hr hst p hold
        | ready hh horder _ =>
            exact hi.unclaimed r hr (hopen _ _ hh r hr horder.symm) p hold
        | failed _ _ => simp [OrderStatus.Open] at hst
        | claim _ _ => simp [OrderStatus.Open] at hst
        | refused _ _ => simp [OrderStatus.Open] at hst
        | finish _ _ _ => simp [OrderStatus.Open] at hst
      · have hlt := hi.ids _ _ hold
        have := hnew.id
        omega
    · generalize hx : Event.orderClaimed r'.id p = ev at hnew
      cases hnew with
      | orderClaimed _ _ hprocessing _ =>
          simp only [Event.orderClaimed.injEq] at hx
          simp [OrderStatus.Open, hprocessing r' hr' hx.1] at hst
      | _ => simp at hx
  once o p p' hev hev' := by
    rcases hc.event _ hev with hold | hnew
    · rcases hc.event _ hev' with hold' | hnew'
      · exact hi.once o p p' hold hold'
      · cases hnew' with
        | orderClaimed hr hready _ _ =>
            exact absurd hold (hi.unclaimed _ hr (Or.inr hready) p)
    · cases hnew with
      | orderClaimed hr hready _ hlog =>
          rcases hc.event _ hev' with hold' | hnew'
          · exact absurd hold' (hi.unclaimed _ hr (Or.inr hready) p')
          · generalize hx : Event.orderClaimed _ p' = ev at hnew'
            cases hnew' with
            | orderClaimed _ _ _ _ =>
                simp only [Event.orderClaimed.injEq] at hx
                exact hx.2.symm
            | _ => simp at hx
  asked o hev := by
    rcases hc.event _ hev with hold | hnew
    · rcases hi.asked o hold with ⟨p, hev⟩
      exact ⟨p, hc.log _ hev⟩
    · cases hnew with
      | asked hh _ =>
          subst hh
          exact ⟨q, hc.log _ hheld.1.claimed⟩
  count o := asks_change hi hc hheld o
  certId r' hr' hst := by
    rcases hc.orders.row r' hr' with ⟨r, hr, hm⟩ | hnew
    · cases hm with
      | same => exact hi.certId r' hr hst
      | failed _ _ => rfl
      | ready _ _ _ => rfl
      | claim hready _ => exact hi.certId r hr (by simp [hready])
      | refused _ _ => rfl
      | finish _ _ _ => simp at hst
    · exact hnew.certId

/-- A handler that wins `ClaimOrder` holds the order, unasked for. -/
theorem Holder.of_claim
    (hi : Issuance s)
    (hc : Change false p h s s')
    {o : Nat} {time : Nat}
    (hlog : s'.log = s.log ++ [.orderClaimed o p])
    (hclaim : s.db.orderClaimable o time = true) :
    Holder p s' o ∧ Event.asked o ∉ s'.log := by
  simp only [Db.orderClaimable, List.any_eq_true, Bool.and_eq_true, beq_iff_eq,
    decide_eq_true_eq] at hclaim
  rcases hclaim with ⟨r, hr, ⟨rfl, hready⟩, _⟩
  have hunclaimed := hi.unclaimed r hr (Or.inr hready)
  have hmem : Event.orderClaimed r.id p ∈ s'.log := by simp [hlog]
  refine ⟨⟨hmem, ?_⟩, ?_⟩
  · rcases hc.event _ hmem with hold | hnew
    · exact absurd hold (hunclaimed p)
    · generalize hx : Event.orderClaimed r.id p = ev at hnew
      cases hnew with
      | orderClaimed _ _ hprocessing _ =>
          simp only [Event.orderClaimed.injEq] at hx
          rw [hx.1]
          exact hprocessing
      | _ => simp at hx
  · intro hasked
    rw [hlog] at hasked
    rcases List.mem_append.mp hasked with hold | hnew
    · rcases hi.asked _ hold with ⟨p', hev⟩
      exact hunclaimed p' hev
    · simp at hnew

/-- A finalize handler's own step. -/
theorem holding_finalize_next
    (hi : Issuance s)
    {pc : Finalize} {k : Choice} {out : Outcome}
    (hf : pc.Holding p s)
    (hc : Change false p (.finalize pc) s (s.apply out.1))
    (hx : finalizeStep p k s pc = some out) :
    Holding p (s.apply out.1) out.2 := by
  cases finalize_step hx with
  | claimed hclaim => exact Holder.of_claim hi hc rfl hclaim
  | issued => exact hf.1.own hc rfl
  | blocked => exact hf.1.own hc rfl
  | parsed => exact Holder.own hc rfl hf
  | stored => exact Holder.own hc rfl hf
  | _ => trivial

/-- The other handlers issue nothing. -/
theorem holding_newOrder_next
    {s₀ : State} {pc : NewOrder} {k : Choice} {out : Outcome}
    (hx : newOrderStep p k s pc = some out) :
    Holding p s₀ out.2 := by
  rcases newOrder_goes hx with ⟨pc', heq⟩ | ⟨r, heq⟩ <;>
    (rw [heq]; trivial)

theorem holding_challenge_next
    {s₀ : State} {pc : ChallengePost} {k : Choice} {out : Outcome}
    (hx : challengeStep p k s pc = some out) :
    Holding p s₀ out.2 := by
  rcases challenge_goes hx with ⟨pc', heq⟩ | ⟨r, heq⟩ <;>
    (rw [heq]; trivial)

theorem holding_collect_next
    {s₀ : State} {pc : Collect} {k : Choice} {out : Outcome}
    (hx : collectStep k s pc = some out) :
    Holding p s₀ out.2 := by
  rcases collect_goes hx with ⟨pc', heq⟩ | ⟨r, heq⟩ <;>
    (rw [heq]; trivial)

/-- The order states that end an order. -/
def OrderStatus.Final (st : OrderStatus) : Prop :=
  st = .valid ∨ st = .invalid

/-- A finished order keeps its status and its certificate. -/
theorem OrderMove.final
    (hs : Inv false s)
    (hi : Issuance s)
    {r r' : Order}
    (hr : r ∈ s.db.orders)
    (hm : OrderMove false q h s s' r r')
    (hopen : ReadyIsOpen h s)
    (hheld : Holding q s h)
    (hfinal : r.status.Final) :
    r'.status = r.status ∧ r'.certId = r.certId := by
  have hnotprocessing : r.status ≠ .processing := by
    rcases hfinal with hst | hst <;> simp [hst]
  cases hm with
  | same => exact ⟨rfl, rfl⟩
  | failed hev hrow =>
      rcases hfinal with hvalid | hinvalid
      · have hearned : r.status.Earned := Or.inr (Or.inr hvalid)
        exact absurd hearned (not_earned_of_lost hs hr hev hrow)
      · exact ⟨hinvalid.symm, (hi.certId r hr (by simp [hinvalid])).symm⟩
  | ready hh horder _ =>
      rcases hopen _ _ hh r hr horder.symm with hst | hst <;>
        simp [OrderStatus.Final, hst] at hfinal
  | claim hready _ => simp [OrderStatus.Final, hready] at hfinal
  | refused hh hid =>
      subst hh
      have hholder : Holder q s _ := hheld
      exact absurd (hholder.processing r hr hid.symm) hnotprocessing
  | finish hh hid _ =>
      subst hh
      have hholder : Holder q s _ := hheld
      exact absurd (hholder.processing r hr hid.symm) hnotprocessing

end Step

/-- What a handler knows of its order survives the steps of the others. -/
theorem Holding.stable
    {p q : Pid} {h m : Handler} {s s' : State}
    (hs : Inv false s)
    (hi : Issuance s)
    (hc : Change false q h s s')
    (hopen : ReadyIsOpen h s)
    (hheld : Holding q s h)
    (hqp : q ≠ p)
    (hf : Holding p s m) :
    Holding p s' m := by
  have hholder : ∀ o, Holder p s o → Holder p s' o :=
    fun o ho => ho.stable hs hi hc hopen hheld hqp
  cases m with
  | finalize pc =>
      cases pc with
      | issue acct o authzs =>
          refine ⟨hholder _ hf.1, ?_⟩
          intro hasked
          rcases hc.event _ hasked with hold | hnew
          · exact hf.2 hold
          · generalize hx : Event.asked o.id = ev at hnew
            cases hnew with
            | asked hh _ =>
                simp only [Event.asked.injEq] at hx
                subst hh
                exact hqp (hi.once _ _ _ (hx ▸ hheld.1.claimed) hf.1.claimed)
            | _ => simp at hx
      | refused o _ => exact hholder _ hf
      | certMeta _ o _ _ _ => exact hholder _ hf
      | store o _ _ => exact hholder _ hf
      | finish o _ _ => exact hholder _ hf
      | _ => trivial
  | _ => trivial

/-- The invariant of runs that write `ready` only on open orders. -/
def OpenInv (s : State) : Prop :=
  Inv false s ∧ Issuance s

/-- The assertions of such runs. -/
def OpenAsserts (p : Pid) (s : State) (h : Handler) : Prop :=
  Asserts false p s h ∧ Holding p s h

/-- Standing before a closed order, the guard lets `ready` only fail. -/
theorem next_closed
    {w : World State Handler} {p : Pid} {k : Choice} {pc : ChallengePost} {out : Outcome}
    (hG : ReadyOnlyOpen w (.act p k))
    (hp : w.procs p = some (.challenge pc))
    (hclosed : ¬ ReadyIsOpen (.challenge pc) w.shared)
    (hx : next p k w.shared (.challenge pc) = some out) :
    w.shared.apply out.1 = w.shared := by
  simp only [ReadyIsOpen, Handler.challenge.injEq, not_forall] at hclosed
  rcases hclosed with ⟨c, a, rfl, r, hr, hid, hst⟩
  cases k with
  | ok =>
      simp only [ReadyOnlyOpen, hp] at hG
      exact absurd (hG r hr hid) hst
  | fail err =>
      rw [← Option.some.inj hx]
      exact State.apply_empty _
  | _ => simp [next, challengeStep] at hx

/-- A step of a handler in such a run: a change that respects open orders. -/
theorem next_open
    {w : World State Handler} {p : Pid} {k : Choice} {h : Handler} {out : Outcome}
    (hw : Program.Holds OpenInv OpenAsserts w)
    (hG : ReadyOnlyOpen w (.act p k))
    (hp : w.procs p = some h)
    (hx : next p k w.shared h = some out) :
    ∃ h₀,
      Change false p h₀ w.shared (w.shared.apply out.1) ∧
      ReadyIsOpen h₀ w.shared ∧
      Holding p w.shared h₀ ∧
      OpenAsserts p (w.shared.apply out.1) out.2 := by
  rcases hw.shared with ⟨hs, hi⟩
  rcases hw.local_ p h hp with ⟨hJ, hf⟩
  rcases next_owes hs hJ hx with ⟨hc, hJ'⟩
  cases h with
  | newOrder pc =>
      exact ⟨_, hc, fun _ _ hh => by simp at hh, hf, hJ', holding_newOrder_next hx⟩
  | challenge pc =>
      by_cases hopen : ReadyIsOpen (.challenge pc) w.shared
      · exact ⟨_, hc, hopen, hf, hJ', holding_challenge_next hx⟩
      · -- The handler stands at the statement, which the guard lets only fail.
        refine ⟨.replied .collected, ?_, fun _ _ hh => by simp at hh, trivial, hJ',
          holding_challenge_next hx⟩
        have hquiet := next_closed hG hp hopen hx
        rw [hquiet]
        exact Change.untouched (Nat.le_refl _) rfl rfl rfl rfl rfl
  | finalize pc =>
      exact ⟨_, hc, fun _ _ hh => by simp at hh, hf, hJ', holding_finalize_next hi hf hc hx⟩
  | gc pc =>
      exact ⟨_, hc, fun _ _ hh => by simp at hh, hf, hJ', holding_collect_next hx⟩
  | replied r => simp [next] at hx

/-- The proof outline of such runs. -/
theorem openOutline :
    Program.Outline frontend Initial ReadyOnlyOpen OpenInv OpenAsserts where
  init s hs := by
    refine ⟨Inv.init false hs, ?_⟩
    rcases hs with ⟨horders, _, _, hlog⟩
    constructor <;> simp [horders, hlog, asks]
  spawn w p r _ hG _ := by
    cases r with
    | challenge account c get => exact ⟨hG, trivial⟩
    | _ => exact ⟨trivial, trivial⟩
  act w p k h s' l hw hG hp hx := by
    rcases frontend_act hx with ⟨e, h', hnext, rfl, rfl⟩
    rcases next_open hw hG hp hnext with ⟨h₀, hc, hopen, hheld, hown⟩
    rcases hw.shared with ⟨hs, hi⟩
    refine ⟨⟨hs.change hc, hi.change hs hc hopen hheld⟩, ?_, ?_⟩
    · intro m hm
      rw [← Option.some.inj hm]
      exact hown
    · intro q m hqp _ hq
      exact ⟨hq.1.stable hs hc hqp.symm, Holding.stable hs hi hc hopen hheld hqp.symm hq.2⟩
  crash w p h hw hp := by
    rcases hw.shared with ⟨hs, hi⟩
    have hc := die_change (hw.local_ p h hp).1 (.replied .collected)
    refine ⟨⟨hs.change hc, hi.change hs hc (fun _ _ hh => by simp at hh) trivial⟩, ?_⟩
    intro q m hqp _ hq
    exact ⟨hq.1.stable hs hc hqp.symm,
      Holding.stable hs hi hc (fun _ _ hh => by simp at hh) trivial hqp.symm hq.2⟩
  env w e s' hw _ hx := by
    have hs' : s' = outside w.shared e := (Option.some.inj hx).symm
    subst hs'
    rcases hw.shared with ⟨hs, hi⟩
    have hc := fun q => outside_change false q (.replied .collected) w.shared e
    refine ⟨⟨hs.change (hc 0),
      hi.change hs (hc 0) (fun _ _ hh => by simp at hh) trivial⟩, ?_⟩
    intro q m _ hq
    exact ⟨hq.1.stable hs (hc (q + 1)) (Nat.succ_ne_self q),
      Holding.stable hs hi (hc (q + 1)) (fun _ _ hh => by simp at hh) trivial
        (Nat.succ_ne_self q) hq.2⟩

/-- A step of such a run, as a change that respects open orders. -/
theorem change_of_exec_open
    {w w' : World State Handler} {a : Action Choice Request Outside}
    (hw : Program.Holds OpenInv OpenAsserts w)
    (hG : ReadyOnlyOpen w a)
    (hx : frontend.exec w a = some w') :
    ∃ p h, Change false p h w.shared w'.shared ∧ ReadyIsOpen h w.shared ∧
      Holding p w.shared h := by
  cases a with
  | spawn p r =>
      rcases Program.exec_spawn hx with ⟨_, rfl⟩
      exact ⟨p, .replied .collected, Change.untouched (Nat.le_refl _) rfl rfl rfl rfl rfl,
        fun _ _ hh => by simp at hh, trivial⟩
  | act p k =>
      rcases Program.exec_act hx with ⟨h, s', l, hp, hact, rfl⟩
      rcases frontend_act hact with ⟨e, h', hnext, rfl, rfl⟩
      rcases next_open hw hG hp hnext with ⟨h₀, hc, hopen, hheld, _⟩
      exact ⟨p, h₀, hc, hopen, hheld⟩
  | crash p =>
      rcases Program.exec_crash hx with ⟨h, hp, rfl⟩
      exact ⟨p, .replied .collected, die_change (hw.local_ p h hp).1 _,
        fun _ _ hh => by simp at hh, trivial⟩
  | env e =>
      rcases Program.exec_env hx with ⟨s', hs, rfl⟩
      have hs' : s' = outside w.shared e := (Option.some.inj hs).symm
      subst hs'
      exact ⟨0, .replied .collected, outside_change false _ _ _ e,
        fun _ _ hh => by simp at hh, trivial⟩

/-- A finished order as it was, for as long as its row exists. -/
def FinishedAs (r : Order) (s : State) : Prop :=
  r.id < s.nextId ∧
    ∀ x ∈ s.db.orders, x.id = r.id → x.status = r.status ∧ x.certId = r.certId

theorem FinishedAs.exec
    {r : Order}
    (hfinal : r.status.Final)
    {w w' : World State Handler} {a : Action Choice Request Outside}
    (hw : Program.Holds OpenInv OpenAsserts w)
    (hG : ReadyOnlyOpen w a)
    (hx : frontend.exec w a = some w')
    (hkept : FinishedAs r w.shared) :
    FinishedAs r w'.shared := by
  rcases change_of_exec_open hw hG hx with ⟨p, h, hc, hopen, hheld⟩
  refine ⟨Nat.lt_of_lt_of_le hkept.1 hc.nextId, ?_⟩
  intro x' hx' hid'
  rcases hc.orders.row x' hx' with ⟨x, hxmem, hm⟩ | hnew
  · rcases hkept.2 x hxmem (hm.fixed.1.symm.trans hid') with ⟨hst, hcert⟩
    have hxfinal : x.status.Final := by
      rw [hst]
      exact hfinal
    rcases hm.final hw.shared.1 hw.shared.2 hxmem hopen hheld hxfinal with ⟨hst', hcert'⟩
    exact ⟨hst'.trans hst, hcert'.trans hcert⟩
  · have hlt := hkept.1
    have := hnew.id
    omega

/-- In every run in which `SetOrderStatus(..., "ready")` is executed only on
orders still `pending` or `ready`: a `valid` or `invalid` order keeps its
status and its certificate while its row exists, and the CA is asked at most
once for each order. -/
theorem orders_final_when_ready_open
    {w w' : World State Handler}
    {as : List (Action Choice Request Outside)}
    (hw : server.Reachable ReadyOnlyOpen w)
    (hrun : server.Run ReadyOnlyOpen w as w') :
    (∀ r ∈ w.shared.db.orders, r.status = .valid ∨ r.status = .invalid →
      ∀ r' ∈ w'.shared.db.orders, r'.id = r.id →
        r'.status = r.status ∧ r'.certId = r.certId)
    ∧
    (∀ o, asks o w'.shared.log ≤ 1) := by
  have hholds : ∀ v, server.Reachable ReadyOnlyOpen v →
      Program.Holds OpenInv OpenAsserts v := fun _ hv => openOutline.sound hv
  refine ⟨?_, (hholds w' (hw.run hrun)).shared.2.count⟩
  intro r hr hfinal r' hr' hid
  have hs := (hholds w hw).shared.1
  have hstart : FinishedAs r w.shared := by
    refine ⟨hs.ids.order r hr, ?_⟩
    intro x hx hxid
    rw [hs.ids.orderKey.eq hx hr hxid]
    exact ⟨rfl, rfl⟩
  have hkept := Automaton.Run.stable hholds
    (fun _ _ _ hv _ hG hx hP => FinishedAs.exec hfinal hv hG hx hP) hw hrun hstart
  exact hkept.2 r' hr' hid

instance (w : World State Handler) :
    (a : Action Choice Request Outside) → Decidable (ReadyOnlyOpen w a)
  | .act p .ok =>
      let ready : (c : Option Handler) → Decidable
          (match c with
            | some (.challenge (.ready _ a)) =>
                ∀ r ∈ w.shared.db.orders, r.id = a.orderId → r.status.Open
            | _ => True)
        | some (.challenge (.ready _ a)) => (inferInstance : Decidable
            (∀ r ∈ w.shared.db.orders, r.id = a.orderId → r.status.Open))
        | some (.challenge (.auth ..)) | some (.challenge (.load ..))
        | some (.challenge (.loadAuthz ..)) | some (.challenge (.clock ..))
        | some (.challenge (.claim ..)) | some (.challenge (.validate ..))
        | some (.challenge (.failChallenge ..)) | some (.challenge (.failAuthz ..))
        | some (.challenge (.failOrder ..)) | some (.challenge (.okChallenge ..))
        | some (.challenge (.okAuthz ..)) | some (.challenge (.scan ..))
        | some (.challenge (.stale _)) | some (.challenge (.reload _)) => instDecidableTrue
        | none | some (.newOrder _) | some (.finalize _) | some (.gc _) | some (.replied _) =>
            instDecidableTrue
      ready (w.procs p)
  | .act p (.fail err) => (inferInstance : Decidable (Presents false w (.act p (.fail err))))
  | .act p (.refused r) => (inferInstance : Decidable (Presents false w (.act p (.refused r))))
  | .act p (.issued chain cn) =>
      (inferInstance : Decidable (Presents false w (.act p (.issued chain cn))))
  | .act p (.parsed info) => (inferInstance : Decidable (Presents false w (.act p (.parsed info))))
  | .spawn p r => (inferInstance : Decidable (Presents false w (.spawn p r)))
  | .crash p => (inferInstance : Decidable (Presents false w (.crash p)))
  | .env e => (inferInstance : Decidable (Presents false w (.env e)))

/-- One order taken from newOrder to its certificate. -/
theorem orders_final_when_ready_open_sample :
    ∃ w : World State Handler,
      (∃ r ∈ w.shared.db.orders, r.id = 1 ∧ r.status = .valid) ∧
      ∀ o, asks o w.shared.log ≤ 1 := by
  let info : CertMeta := ⟨"40", "ari", 0, 1⟩
  have hcheck :
      (server.follow ReadyOnlyOpen (World.idle sampleState)
        (sampleOrder ++ .spawn 1 (.challenge 0 3 false) :: oks 1 11 ++
          .spawn 2 (.finalize 0 1 (.csr ⟨"a.ca", [], [], [], []⟩)) :: oks 2 4 ++
          [.act 2 (.issued "chain" "a.ca"), .act 2 (.parsed info)] ++ oks 2 2)).any
        (fun w => decide (∃ r ∈ w.shared.db.orders, r.id = 1 ∧ r.status = .valid)) = true := by
    decide
  rcases Automaton.Run.exists_of_follow hcheck with ⟨w, hrun, hw⟩
  have hreach := Automaton.Reachable.of_run sampleState_init hrun
  exact ⟨w, of_decide_eq_true hw,
    (orders_final_when_ready_open hreach (Automaton.Run.nil w)).2⟩

/-- Two names, two challenges: both handlers find every authorization valid;
one sets the order `ready` and it is finalized; the other then sets it `ready`
again, and it is finalized a second time. -/
theorem valid_order_reopened :
    ¬ ∀ (w w' : World State Handler) (as : List (Action Choice Request Outside)),
      server.Reachable (Presents true) w → server.Run (Presents true) w as w' →
        (∀ r ∈ w.shared.db.orders, r.status = .valid ∨ r.status = .invalid →
          ∀ r' ∈ w'.shared.db.orders, r'.id = r.id →
            r'.status = r.status ∧ r'.certId = r.certId)
        ∧
        (∀ o, asks o w'.shared.log ≤ 1) := by
  intro hclaim
  let csr : FinalizePayload := .csr ⟨"", ["a.ca", "b.ca"], [], [], []⟩
  let issue : Pid → List (Action Choice Request Outside) := fun p =>
    .spawn p (.finalize 0 1 csr) :: oks p 4 ++
      [.act p (.issued "chain" "a.ca"), .act p (.parsed ⟨"40", "ari", 0, 1⟩)] ++ oks p 2
  let valid : World State Handler → Bool := fun w =>
    decide (∃ r ∈ w.shared.db.orders, r.id = 1 ∧ r.status = .valid)
  have hcheck :
      (server.follow (Presents true) (World.idle sampleState)
        (.spawn 0 (.newOrder 0 [⟨"dns", "a.ca"⟩, ⟨"dns", "b.ca"⟩]) :: oks 0 14 ++
          .spawn 1 (.challenge 0 3 false) :: oks 1 8 ++
          .spawn 2 (.challenge 0 8 false) :: oks 2 8 ++
          oks 1 2 ++ issue 3)).any
        (fun w => valid w &&
          (server.follow (Presents true) w (oks 2 2 ++ issue 4)).any
            fun w' => decide (asks 1 w'.shared.log = 2)) = true := by
    decide
  rcases Automaton.Run.exists_of_follow hcheck with ⟨w, hrun, hw⟩
  rw [Bool.and_eq_true] at hw
  rcases Automaton.Run.exists_of_follow hw.2 with ⟨w', hrun', hw'⟩
  have hreach := Automaton.Reachable.of_run sampleState_init hrun
  have hasks := (hclaim w w' _ hreach hrun').2 1
  rw [of_decide_eq_true hw'] at hasks
  omega

end Acme
end Yca
