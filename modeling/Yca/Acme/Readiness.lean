import Yca.Acme.Authorizations
import Yca.Acme.Statements

/-!
# No order is left waiting

Each challenge handler marks its own authorization valid and then looks whether
the others are; the one that finds them all valid makes the order ready.  With
several of them at once none is lost: as long as these last two statements go
through, a pending order whose authorizations are all valid has a handler that
is about to make it ready.
-/

namespace Yca
namespace Acme

open Yca.Core

/-- The order whose authorizations the handler is looking through, or that it
found to be ready. -/
def Handler.scanning : Handler → Option Nat
  | .challenge (.scan _ a) => some a.orderId
  | .challenge (.ready _ a) => some a.orderId
  | _ => none

/-- The order has authorizations, and they are all valid. -/
structure Db.AllValid (d : Db) (o : Nat) : Prop where
  some : ∃ a ∈ d.authzs, a.orderId = o
  valid : ∀ a ∈ d.authzs, a.orderId = o → a.status = .valid

/-- What `handleChallenge` looks for. -/
theorem Db.AllValid.all
    {d : Db} {o i : Nat}
    (hall : d.AllValid o)
    (hi : i = o) :
    ((d.authzsByOrder i).all fun x => x.status == .valid) = true := by
  rw [List.all_eq_true]
  intro x hmem
  rcases List.mem_filter.mp hmem with ⟨hx, horder⟩
  exact beq_iff_eq.mpr (hall.valid x hx ((beq_iff_eq.mp horder).trans hi))

section Step

variable {p : Pid} {k : Choice} {s : State} {h : Handler} {out : Outcome}

/-- One statement makes an authorization valid. -/
theorem next_validates
    (hx : next p k s h = some out)
    {i : Nat}
    (hstmt : out.1.stmt = .setAuthzStatus i .valid) :
    ∃ c a, h = .challenge (.okAuthz c a) ∧ a.id = i ∧ out.2 = .challenge (.scan c a) := by
  cases h with
  | newOrder pc => cases newOrder_step hx <;> cases hstmt
  | challenge pc =>
      cases challenge_step hx with
      | @okAuthz c a =>
          cases hstmt
          exact ⟨c, a, rfl, rfl, rfl⟩
      | _ => cases hstmt
  | finalize pc => cases finalize_step hx <;> cases hstmt
  | gc pc => cases collect_step hx <;> cases hstmt
  | replied r => simp [next] at hx

/-- A valid authorization was valid before, or this is the step that makes it
so. -/
theorem became_valid
    (hx : next p k s h = some out)
    {x : Authz}
    (hmem : x ∈ (s.apply out.1).db.authzs)
    (hvalid : x.status = .valid) :
    x ∈ s.db.authzs ∨
      ∃ c a, h = .challenge (.okAuthz c a) ∧ a.id = x.id ∧ out.2 = .challenge (.scan c a) := by
  have hruns := next_runs hx
  rw [State.apply_db] at hmem
  cases hstmt : out.1.stmt with
  | insertAuthz a =>
      rw [hstmt] at hmem hruns
      rcases List.mem_append.mp hmem with hold | hnew
      · exact Or.inl hold
      · rcases hruns with ⟨o, made, name, rest, _, ha⟩
        rw [List.mem_singleton.mp hnew, ha] at hvalid
        cases hvalid
  | setAuthzStatus i status =>
      rw [hstmt] at hmem
      rcases mem_updateWhere.mp hmem with ⟨x₀, hx₀, ⟨hid, rfl⟩ | ⟨_, rfl⟩⟩
      · cases hvalid
        rcases next_validates hx hstmt with ⟨c, a, hh, hai, hout⟩
        exact Or.inr ⟨c, a, hh, hai.trans (beq_iff_eq.mp hid).symm, hout⟩
      · exact Or.inl hx₀
  | gcAuthzs cutoff =>
      rw [hstmt] at hmem
      exact Or.inl (List.mem_of_mem_filter hmem)
  | claimChallenge c =>
      rw [hstmt] at hmem
      simp only [Stmt.run] at hmem
      split at hmem <;> exact Or.inl hmem
  | _ =>
      rw [hstmt] at hmem
      exact Or.inl hmem

/-- The handler that finds the authorizations valid goes on to make the order
ready, unless a statement of its own fails. -/
theorem scanning_next
    (hx : next p k s h = some out)
    {o : Nat}
    (hscan : h.scanning = some o)
    (hk : ∀ err, k ≠ .fail err)
    (hall : s.db.AllValid o) :
    out.2.scanning = some o ∨ out.1.stmt = .setOrderStatus o .ready none none := by
  cases h with
  | challenge pc =>
      cases challenge_step hx with
      | @answered _ pc _ _ hpc =>
          cases pc with
          | scan => exact hpc.elim
          | ready => exact hpc.elim
          | _ => cases hscan
      | complete =>
          cases hscan
          exact Or.inl rfl
      | incomplete hsome =>
          cases hscan
          rw [hall.all rfl] at hsome
          cases hsome
      | ready =>
          cases hscan
          exact Or.inr rfl
      | skipped => exact absurd rfl (hk _)
      | _ => cases hscan
  | _ => cases hscan

end Step

/-- Runs in which the last two statements of a challenge handler go through. -/
def Tidy : Guard (World State Handler) (Action Choice Request Outside)
  | w, .act p (.fail _) => ∀ h ∈ w.procs p, h.scanning = none
  | w, .crash p => ∀ h ∈ w.procs p, h.scanning = none
  | w, a => Presents false w a

instance (w : World State Handler) (a : Action Choice Request Outside) :
    Decidable (Tidy w a) :=
  match a with
  | .act p (.fail _) =>
      decidable_of_iff ((w.procs p).all (fun h => h.scanning.isNone) = true) (by
        cases hp : w.procs p <;> simp [Tidy, hp])
  | .crash p =>
      decidable_of_iff ((w.procs p).all (fun h => h.scanning.isNone) = true) (by
        cases hp : w.procs p <;> simp [Tidy, hp])
  | .spawn p r => inferInstanceAs (Decidable (Presents false w (.spawn p r)))
  | .act _ .ok => inferInstanceAs (Decidable True)
  | .act _ (.refused _) => inferInstanceAs (Decidable True)
  | .act _ (.issued _ _) => inferInstanceAs (Decidable True)
  | .act _ (.parsed _) => inferInstanceAs (Decidable True)
  | .env _ => inferInstanceAs (Decidable True)

theorem Tidy.presents
    {w : World State Handler} {a : Action Choice Request Outside}
    (hG : Tidy w a) :
    Presents false w a := by
  cases a with
  | spawn p r => exact hG
  | _ => trivial

/-- A pending order whose authorizations are all valid has a handler that is
looking through them. -/
def Attended (w : World State Handler) : Prop :=
  ∀ r ∈ w.shared.db.orders, r.status = .pending → w.shared.db.AllValid r.id →
    ∃ p h, w.procs p = some h ∧ h.scanning = some r.id

section Runs

variable {w w' : World State Handler}

/-- A pending order was there before, and its authorizations were all valid
unless this step made the last of them so. -/
theorem allValid_before
    {p : Pid} {k : Choice} {h : Handler} {out : Outcome} {s : State}
    (hs : Inv false s)
    (hJ : Asserts false p s h)
    (hx : next p k s h = some out)
    {r : Order}
    (hr : r ∈ (s.apply out.1).db.orders)
    (hpending : r.status = .pending)
    (hall : (s.apply out.1).db.AllValid r.id) :
    r ∈ s.db.orders ∧ (s.db.AllValid r.id ∨ out.2.scanning = some r.id) := by
  rcases next_owes hs hJ hx with ⟨hc, _⟩
  -- Its authorizations have rows already: none is new.
  have hrow : ∀ x ∈ (s.apply out.1).db.authzs, x.orderId = r.id →
      ∃ y ∈ s.db.authzs, AuthzMove p s y x := by
    intro x hx horder
    rcases hc.authzs.row x hx with hold | hnew
    · exact hold
    · have hvalid := hall.valid x hx horder
      rw [hnew.status] at hvalid
      cases hvalid
  rcases hall.some with ⟨a₁, ha₁, horder₁⟩
  rcases hrow a₁ ha₁ horder₁ with ⟨y₁, hy₁, hm₁⟩
  rcases hm₁.fixed with ⟨_, hyorder₁, _⟩
  have hold : r ∈ s.db.orders := by
    rcases hc.orders.row r hr with ⟨r₀, hr₀, hm⟩ | hnew
    · cases hm with
      | same => exact hr₀
      | claim hready _ => cases hpending
      | _ => cases hpending
    · have hlt := hs.origins.authz_order_lt hy₁
      have hid := hnew.id
      omega
  refine ⟨hold, ?_⟩
  by_cases hstill : ∀ x ∈ (s.apply out.1).db.authzs, x.orderId = r.id → x ∈ s.db.authzs
  · left
    have hy := hstill a₁ ha₁ horder₁
    refine ⟨⟨a₁, hy, horder₁⟩, ?_⟩
    intro a ha horder
    rcases hc.authzs.kept a ha with ⟨a', ha', hm⟩ | hgone
    · rcases hm.fixed with ⟨hid, horder', _⟩
      have hmem := hstill a' ha' (horder'.trans horder)
      rw [← hs.ids.authzKey.eq hmem ha hid]
      exact hall.valid a' ha' (horder'.trans horder)
    · -- Only an order that came late loses authorizations while it is there.
      have hdecided : a₁.status ≠ .pending := by
        rw [hall.valid a₁ ha₁ horder₁]
        decide
      rcases hs.decisions.claimed a₁ hy hdecided with ⟨c, o, q, hev⟩
      have ho := (hs.claims.used _ _ _ _ hev a₁ hy rfl).1
      have hlate := hgone r hr horder.symm
      rw [← horder₁, ho] at hlate
      exact absurd hlate (hs.claims.late _ _ _ _ hev)
  · right
    rw [not_forall] at hstill
    rcases hstill with ⟨x, hstill⟩
    rw [Classical.not_imp, Classical.not_imp] at hstill
    rcases hstill with ⟨hxmem, horder, hnew⟩
    rcases became_valid hx hxmem (hall.valid x hxmem horder) with hmem | ⟨c, a, rfl, haid, hout⟩
    · exact absurd hmem hnew
    · rcases hrow x hxmem horder with ⟨y, hy, hm⟩
      rcases hm.fixed with ⟨hyid, hyorder, _⟩
      have hrow := (hJ.1.target.authzRow y hy (hyid.symm.trans haid.symm)).1
      rw [hout]
      exact congrArg some (hrow.symm.trans (hyorder.symm.trans horder))

/-- A step of a handler. -/
theorem Attended.act
    (hw : Program.Holds (Inv false) (Asserts false) w)
    (hatt : Attended w)
    {p : Pid} {k : Choice}
    (hG : Tidy w (.act p k))
    {h : Handler} {out : Outcome}
    (hp : w.procs p = some h)
    (hx : next p k w.shared h = some out) :
    Attended (w.put (w.shared.apply out.1) p (some out.2)) := by
  intro r hr hpending hall
  rcases allValid_before hw.shared (hw.local_ p h hp) hx hr hpending hall with
    ⟨hold, hbefore | hscan⟩
  · rcases hatt r hold hpending hbefore with ⟨q, m, hq, hscan⟩
    by_cases hqp : q = p
    · subst hqp
      rw [hp] at hq
      cases hq
      have hk : ∀ err, k ≠ .fail err := by
        rintro err rfl
        rw [hG h hp] at hscan
        cases hscan
      rcases scanning_next hx hscan hk hbefore with hnext | hstmt
      · exact ⟨q, out.2, World.put_procs_self _ _ _ _, hnext⟩
      · -- The order it makes ready is not pending.
        rw [World.put_shared, State.apply_db, hstmt] at hr
        rcases mem_updateWhere.mp hr with ⟨r₀, _, ⟨_, rfl⟩ | ⟨hid, rfl⟩⟩
        · cases hpending
        · simp at hid
    · exact ⟨q, m, (World.put_procs_of_ne w _ hqp _).trans hq, hscan⟩
  · exact ⟨p, out.2, World.put_procs_self _ _ _ _, hscan⟩

/-- Any step of a tidy run. -/
theorem Attended.exec
    (hw : Program.Holds (Inv false) (Asserts false) w)
    (hatt : Attended w)
    {a : Action Choice Request Outside}
    (hG : Tidy w a)
    (hx : frontend.exec w a = some w') :
    Attended w' := by
  cases a with
  | spawn p r =>
      rcases Program.exec_spawn hx with ⟨hfree, rfl⟩
      intro r hr hpending hall
      rcases hatt r hr hpending hall with ⟨q, m, hq, hscan⟩
      have hqp : q ≠ p := by
        rintro rfl
        rw [hfree] at hq
        cases hq
      exact ⟨q, m, (World.put_procs_of_ne w _ hqp _).trans hq, hscan⟩
  | act p k =>
      rcases Program.exec_act hx with ⟨h, s', l, hp, hact, rfl⟩
      rcases frontend_act hact with ⟨e, h', hnext, rfl, rfl⟩
      exact hatt.act hw hG hp hnext
  | crash p =>
      rcases Program.exec_crash hx with ⟨h, hp, rfl⟩
      intro r hr hpending hall
      have hdb := die_db h w.shared
      rw [World.put_shared] at hr hall
      change r ∈ (die h w.shared).db.orders at hr
      change (die h w.shared).db.AllValid r.id at hall
      rw [hdb] at hr hall
      rcases hatt r hr hpending hall with ⟨q, m, hq, hscan⟩
      have hqp : q ≠ p := by
        rintro rfl
        rw [hG m hq] at hscan
        cases hscan
      exact ⟨q, m, (World.put_procs_of_ne w _ hqp _).trans hq, hscan⟩
  | env e =>
      rcases Program.exec_env hx with ⟨s', hs, rfl⟩
      have hs' : s' = outside w.shared e := (Option.some.inj hs).symm
      subst hs'
      rcases (outside_rows w.shared e).1 with ⟨horders, hauthzs, _, _⟩
      intro r hr hpending hall
      refine hatt r (horders ▸ hr) hpending ⟨?_, ?_⟩
      · rw [← hauthzs]
        exact hall.some
      · rw [← hauthzs]
        exact hall.valid

theorem attended_of_reachable
    (hw : server.Reachable Tidy w) :
    Attended w := by
  have hasserts : ∀ v, server.Reachable Tidy v → Program.Holds (Inv false) (Asserts false) v :=
    fun v hv => holds_of_reachable (hv.mono fun _ _ hG => hG.presents)
  rcases hw with ⟨w₀, as, h₀, hrun⟩
  refine Automaton.Run.stable (P := Attended) (I := fun v => server.Reachable Tidy v)
    (fun v hv => hv) (fun v a v' hv _ hG hx hatt => hatt.exec (hasserts v hv) hG hx)
    (Automaton.Reachable.of_init h₀) hrun ?_
  intro r hr
  rw [h₀.1.1] at hr
  cases hr

theorem exec_next
    {p : Pid} {k : Choice} {h : Handler} {out : Outcome}
    (hp : w.procs p = some h)
    (hx : next p k w.shared h = some out) :
    server.exec w (.act p k) =
      some (w.put (w.shared.apply out.1) p (some out.2)) := by
  simp only [server, Program.system, Program.exec, hp, frontend, hx]

/-- The handler that has found an order ready makes it so. -/
theorem ready_of_found
    {p : Pid} {c : Challenge} {a : Authz} {r : Order}
    (hp : w.procs p = some (.challenge (.ready c a)))
    (hr : r ∈ w.shared.db.orders)
    (horder : a.orderId = r.id) :
    ∃ w', server.Run Tidy w (oks p 1) w' ∧
      ∃ r' ∈ w'.shared.db.orders, r'.id = r.id ∧ r'.status = .ready := by
  have hstep := exec_next (k := .ok) hp rfl
  refine ⟨_, Automaton.Run.cons trivial hstep (Automaton.Run.nil _),
    { r with status := .ready, certId := none, error := none }, ?_, rfl, rfl⟩
  exact mem_updateWhere.mpr ⟨r, hr, Or.inl ⟨beq_iff_eq.mpr horder.symm, rfl⟩⟩

/-- The handler that is looking makes the order ready in at most two steps. -/
theorem ready_of_scanning
    {p : Pid} {h : Handler} {r : Order}
    (hp : w.procs p = some h)
    (hscan : h.scanning = some r.id)
    (hr : r ∈ w.shared.db.orders)
    (hall : w.shared.db.AllValid r.id) :
    ∃ n w', n ≤ 2 ∧ server.Run Tidy w (oks p n) w' ∧
      ∃ r' ∈ w'.shared.db.orders, r'.id = r.id ∧ r'.status = .ready := by
  cases h with
  | challenge pc =>
      cases pc with
      | scan c a =>
          have horder : a.orderId = r.id := Option.some.inj hscan
          have hnext : next p .ok w.shared (.challenge (.scan c a)) =
              some (goto (.challenge (.ready c a))) := by
            simp only [next, challengeStep]
            exact if_pos (hall.all horder)
          have hstep := exec_next hp hnext
          have hp' := World.put_procs_self w (w.shared.apply {}) p
            (some (.challenge (.ready c a)))
          rcases ready_of_found hp' hr horder with ⟨w', hrun, hdone⟩
          exact ⟨2, w', Nat.le_refl 2, Automaton.Run.cons trivial hstep hrun, hdone⟩
      | ready c a =>
          rcases ready_of_found hp hr (Option.some.inj hscan) with ⟨w', hrun, hdone⟩
          exact ⟨1, w', by decide, hrun, hdone⟩
      | _ => cases hscan
  | _ => cases hscan

end Runs

/-- In every interleaving in which the last two statements of a challenge
handler go through: whenever all authorizations of a pending order are valid,
one of the handlers at work makes the order ready with its next steps.  So once
the challenge handlers have finished, no order is left pending with all its
authorizations valid. -/
theorem ready_not_lost
    {w : World State Handler}
    (hw : server.Reachable Tidy w)
    {r : Order}
    (hr : r ∈ w.shared.db.orders)
    (hpending : r.status = .pending)
    (hall : w.shared.db.AllValid r.id) :
    ∃ p h n w',
      w.procs p = some h ∧ h.scanning = some r.id ∧
      n ≤ 2 ∧ server.Run Tidy w (oks p n) w' ∧
      ∃ r' ∈ w'.shared.db.orders, r'.id = r.id ∧ r'.status = .ready := by
  rcases attended_of_reachable hw r hr hpending hall with ⟨p, h, hp, hscan⟩
  rcases ready_of_scanning hp hscan hr hall with ⟨n, w', hn, hrun, hdone⟩
  exact ⟨p, h, n, w', hp, hscan, hn, hrun, hdone⟩

/-- Two names are validated at the same time, each by its own handler. -/
theorem ready_not_lost_sample :
    ∃ (w : World State Handler) (p : Pid) (n : Nat) (w' : World State Handler),
      (w.shared.db.authzs.map fun a => a.status) = [.valid, .valid] ∧
      (w.shared.db.orders.map fun r => r.status) = [.pending] ∧
      server.Run Tidy w (oks p n) w' ∧ ∃ r' ∈ w'.shared.db.orders, r'.status = .ready := by
  have hcheck :
      (server.follow Tidy (World.idle sampleState)
        (.spawn 0 (.newOrder 0 [⟨"dns", "a.ca"⟩, ⟨"dns", "b.ca"⟩]) :: oks 0 14 ++
          .spawn 1 (.challenge 0 3 false) :: .spawn 2 (.challenge 0 8 false) ::
          oks 1 7 ++ oks 2 8 ++ oks 1 1)).any
        (fun w => decide ((w.shared.db.authzs.map fun a => a.status) = [.valid, .valid] ∧
          (w.shared.db.orders.map fun r => r.status) = [.pending] ∧
          ∃ r ∈ w.shared.db.orders, r.status = .pending ∧
            (∃ a ∈ w.shared.db.authzs, a.orderId = r.id) ∧
            ∀ a ∈ w.shared.db.authzs, a.orderId = r.id → a.status = .valid)) = true := by
    decide
  rcases Automaton.Run.exists_of_follow hcheck with ⟨w, hrun, hw⟩
  rcases of_decide_eq_true hw with ⟨hvalid, hpending, r, hr, hrpending, hsome, hall⟩
  have hreach := Automaton.Reachable.of_run sampleState_init hrun
  rcases ready_not_lost hreach hr hrpending ⟨hsome, hall⟩ with
    ⟨p, _, n, w', _, _, _, hrun', r', hr', _, hready⟩
  exact ⟨w, p, n, w', hvalid, hpending, hrun', r', hr', hready⟩

end Acme
end Yca
