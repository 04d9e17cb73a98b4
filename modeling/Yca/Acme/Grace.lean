import Yca.Acme.Authorizations
import Yca.Acme.Pages
import Yca.Acme.Statements

/-!
# How long pages stay

A garbage collection reads the clock once and then runs its three statements,
each of which may be delayed.  Still, in a run whose collections all allow a
grace of at least `grace`, no order and no authorization is collected before
its expiry lies that far back: the cutoff a collection works with is never
ahead of the clock.  So a client that asks for its order, or for one of its
authorizations, is not told that there is none.
-/

namespace Yca
namespace Acme

open Yca.Core

theorem gcCutoff_mono
    {now now' grace grace' : Nat}
    (hnow : now ≤ now')
    (hgrace : grace ≤ grace') :
    gcCutoff now grace' ≤ gcCutoff now' grace := by
  simp only [gcCutoff, Int.fdiv_eq_ediv_of_nonneg _ (show (0 : Int) ≤ 1000000000 by omega)]
  omega

/-- A run whose collections allow at least this grace. -/
def Gracious (grace : Nat) : Guard (World State Handler) (Action Choice Request Outside)
  | w, .spawn _ (.challenge _ c _) => Presented false w.shared c
  | _, .spawn _ (.gc g) => grace ≤ g
  | _, _ => True

instance (grace : Nat) (w : World State Handler) :
    (a : Action Choice Request Outside) → Decidable (Gracious grace w a)
  | .spawn _ (.challenge _ c _) => (inferInstance : Decidable (Presented false w.shared c))
  | .spawn _ (.gc g) => (inferInstance : Decidable (grace ≤ g))
  | .spawn _ (.newOrder _ _) => isTrue trivial
  | .spawn _ (.finalize _ _ _) => isTrue trivial
  | .act _ _ => isTrue trivial
  | .crash _ => isTrue trivial
  | .env _ => isTrue trivial

theorem Gracious.presents
    {grace : Nat}
    {w : World State Handler} {a : Action Choice Request Outside}
    (hG : Gracious grace w a) :
    Presents false w a := by
  cases a with
  | spawn p r =>
      cases r with
      | challenge account c get => exact hG
      | _ => trivial
  | _ => trivial

/-- What a collection knows of its cutoff. -/
def Collect.Patient (grace : Nat) (s : State) : Collect → Prop
  | .start g => grace ≤ g
  | .orders cutoff => cutoff ≤ gcCutoff s.now grace
  | .authzs cutoff => cutoff ≤ gcCutoff s.now grace
  | .challenges => True

/-- What a handler knows of its cutoff. -/
def Patient (grace : Nat) (s : State) : Handler → Prop
  | .gc pc => pc.Patient grace s
  | _ => True

section Step

variable {grace : Nat} {p : Pid} {k : Choice} {s s' : State} {h : Handler}

theorem Patient.later
    (hnow : s.now ≤ s'.now)
    (hf : Patient grace s h) :
    Patient grace s' h := by
  cases h with
  | gc pc =>
      cases pc with
      | orders cutoff => exact Int.le_trans hf (gcCutoff_mono hnow (Nat.le_refl _))
      | authzs cutoff => exact Int.le_trans hf (gcCutoff_mono hnow (Nat.le_refl _))
      | _ => exact hf
  | _ => trivial

/-- A handler's own step. -/
theorem patient_next
    (hf : Patient grace s h)
    {out : Outcome}
    (hx : next p k s h = some out) :
    Patient grace (s.apply out.1) out.2 := by
  cases h with
  | newOrder pc =>
      rcases newOrder_goes hx with ⟨pc', hout⟩ | ⟨r, hout⟩ <;> (rw [hout]; trivial)
  | challenge pc =>
      rcases challenge_goes hx with ⟨pc', hout⟩ | ⟨r, hout⟩ <;> (rw [hout]; trivial)
  | finalize pc =>
      rcases finalize_goes hx with ⟨pc', hout⟩ | ⟨r, hout⟩ <;> (rw [hout]; trivial)
  | gc pc =>
      cases collect_step hx with
      | started => exact gcCutoff_mono (Nat.le_refl _) hf
      | orders => exact hf
      | _ => trivial
  | replied r => simp [next] at hx

end Step

/-- The proof outline of such runs. -/
theorem patientOutline (grace : Nat) :
    Program.Outline frontend Initial (Gracious grace) (Inv false)
      (fun p s h => Asserts false p s h ∧ Patient grace s h) where
  init s hs := Inv.init false hs
  spawn w p r _ hG _ := by
    cases r with
    | challenge account c get => exact ⟨hG, trivial⟩
    | gc g => exact ⟨trivial, hG⟩
    | _ => exact ⟨trivial, trivial⟩
  act w p k h s' l hw _ hp hx := by
    rcases frontend_act hx with ⟨e, h', hnext, rfl, rfl⟩
    rcases hw.local_ p h hp with ⟨hJ, hf⟩
    rcases next_owes hw.shared hJ hnext with ⟨hc, hJ'⟩
    refine ⟨hw.shared.change hc, ?_, ?_⟩
    · intro m hm
      rw [← Option.some.inj hm]
      exact ⟨hJ', patient_next hf hnext⟩
    · intro q m hqp _ hq
      exact ⟨hq.1.stable hw.shared hc hqp.symm, hq.2.later hc.now⟩
  crash w p h hw hp := by
    have hc := die_change (hw.local_ p h hp).1 (.replied .collected)
    refine ⟨hw.shared.change hc, ?_⟩
    intro q m hqp _ hq
    exact ⟨hq.1.stable hw.shared hc hqp.symm, hq.2.later hc.now⟩
  env w e s' hw _ hx := by
    have hs' : s' = outside w.shared e := (Option.some.inj hx).symm
    subst hs'
    have hc := fun q => outside_change false q (.replied .collected) w.shared e
    refine ⟨hw.shared.change (hc 0), ?_⟩
    intro q m _ hq
    exact ⟨hq.1.stable hw.shared (hc (q + 1)) (Nat.succ_ne_self q), hq.2.later (hc 0).now⟩

/-- The columns of an order that never move. -/
def Order.stub (o : Order) : Nat × Nat × Nat :=
  (o.id, o.accountId, o.expires)

/-- The columns of an authorization that never move. -/
def Authz.stub (a : Authz) : Nat × Nat × Nat :=
  (a.id, a.accountId, a.expires)

/-- The clock does not go back. -/
theorem now_of_exec
    {grace : Nat} {w w' : World State Handler} {a : Action Choice Request Outside}
    (hw : Program.Holds (Inv false) (fun p s h => Asserts false p s h ∧ Patient grace s h) w)
    (hx : frontend.exec w a = some w') :
    w.shared.now ≤ w'.shared.now := by
  have hw' : Program.Holds (Inv false) (Asserts false) w :=
    ⟨hw.shared, fun p l hl => (hw.local_ p l hl).1⟩
  rcases change_of_exec hw' hx with ⟨q, h, hc⟩
  exact hc.now

/-- An order of the account, with this id and expiry. -/
def Db.HasOrder (d : Db) (account id expires : Nat) : Prop :=
  ∃ o ∈ d.orders, o.stub = (id, account, expires)

/-- An authorization of the account, with this id and expiry. -/
def Db.HasAuthz (d : Db) (account id expires : Nat) : Prop :=
  ∃ a ∈ d.authzs, a.stub = (id, account, expires)

instance (d : Db) (account id expires : Nat) : Decidable (d.HasOrder account id expires) :=
  inferInstanceAs (Decidable (∃ o ∈ d.orders, o.stub = (id, account, expires)))

section Run

variable {d : Db} {stmt : Stmt} {account id expires : Nat}

/-- A statement takes an order away only when it collects it. -/
theorem Db.HasOrder.run
    (ho : d.HasOrder account id expires)
    (hgc : ∀ cutoff, stmt = .gcOrders cutoff → ¬ (expires : Int) < cutoff) :
    (stmt.run d).HasOrder account id expires := by
  rcases ho with ⟨o, hmem, hstub⟩
  have hupdated : ∀ (p : Order → Bool) (f : Order → Order),
      (∀ x, (f x).stub = x.stub) →
      ∃ x ∈ updateWhere p f d.orders, x.stub = (id, account, expires) := by
    intro p f hf
    rcases exists_mem_updateWhere (p := p) hf hmem with ⟨x, hx, hkey⟩
    exact ⟨x, hx, hkey.trans hstub⟩
  cases stmt with
  | insertOrder x => exact ⟨o, List.mem_append_left _ hmem, hstub⟩
  | setOrderStatus i status certId error => exact hupdated _ _ fun _ => rfl
  | claimOrder i now => exact hupdated _ _ fun _ => rfl
  | gcOrders cutoff =>
      have hkeep := hgc cutoff rfl
      have hexp : o.expires = expires := congrArg (fun k => k.2.2) hstub
      refine ⟨o, List.mem_filter.mpr ⟨hmem, ?_⟩, hstub⟩
      simpa [hexp] using hkeep
  | claimChallenge c =>
      simp only [Stmt.run]
      split <;> exact ⟨o, hmem, hstub⟩
  | _ => exact ⟨o, hmem, hstub⟩

/-- The same for an authorization. -/
theorem Db.HasAuthz.run
    (ha : d.HasAuthz account id expires)
    (hgc : ∀ cutoff, stmt = .gcAuthzs cutoff → ¬ (expires : Int) < cutoff) :
    (stmt.run d).HasAuthz account id expires := by
  rcases ha with ⟨a, hmem, hstub⟩
  cases stmt with
  | insertAuthz x => exact ⟨a, List.mem_append_left _ hmem, hstub⟩
  | setAuthzStatus i status =>
      have hkept : ∀ x : Authz, Authz.stub { x with status := status } = x.stub := fun _ => rfl
      rcases exists_mem_updateWhere (p := fun x => x.id == i) hkept hmem with ⟨x, hx, hkey⟩
      exact ⟨x, hx, hkey.trans hstub⟩
  | gcAuthzs cutoff =>
      have hkeep := hgc cutoff rfl
      have hexp : a.expires = expires := congrArg (fun k => k.2.2) hstub
      refine ⟨a, List.mem_filter.mpr ⟨hmem, ?_⟩, hstub⟩
      simpa [hexp] using hkeep
  | claimChallenge c =>
      simp only [Stmt.run]
      split <;> exact ⟨a, hmem, hstub⟩
  | _ => exact ⟨a, hmem, hstub⟩

end Run

/-- The rows are there after any step that leaves the tables as they are. -/
theorem SameRows.has
    {s s' : State} {account id expires : Nat}
    (hrows : SameRows s s') :
    (s.db.HasOrder account id expires → s'.db.HasOrder account id expires) ∧
    (s.db.HasAuthz account id expires → s'.db.HasAuthz account id expires) := by
  simp only [Db.HasOrder, Db.HasAuthz, hrows.orders, hrows.authzs]
  exact ⟨fun ho => ho, fun ha => ha⟩

/-- A row goes only in a collection's own statement, with a cutoff that the
collection's grace allows. -/
theorem rows_of_exec
    {grace : Nat} {w w' : World State Handler} {a : Action Choice Request Outside}
    {account id expires : Nat}
    (hw : Program.Holds (Inv false) (fun p s h => Asserts false p s h ∧ Patient grace s h) w)
    (hx : frontend.exec w a = some w')
    (hdue : gcCutoff w.shared.now grace ≤ expires) :
    (w.shared.db.HasOrder account id expires → w'.shared.db.HasOrder account id expires) ∧
    (w.shared.db.HasAuthz account id expires → w'.shared.db.HasAuthz account id expires) := by
  cases a with
  | spawn p r =>
      rcases Program.exec_spawn hx with ⟨_, rfl⟩
      exact ⟨fun ho => ho, fun ha => ha⟩
  | act p k =>
      rcases Program.exec_act hx with ⟨h, s', l, hp, hact, rfl⟩
      rcases frontend_act hact with ⟨e, h', hnext, rfl, rfl⟩
      have hruns := next_runs hnext
      have hpatient := (hw.local_ p h hp).2
      refine ⟨fun ho => ho.run ?_, fun ha => ha.run ?_⟩
      · intro cutoff hstmt
        simp only [hstmt] at hruns
        cases hruns
        have hcutoff : cutoff ≤ gcCutoff w.shared.now grace := hpatient
        omega
      · intro cutoff hstmt
        simp only [hstmt] at hruns
        cases hruns
        have hcutoff : cutoff ≤ gcCutoff w.shared.now grace := hpatient
        omega
  | crash p =>
      rcases Program.exec_crash hx with ⟨h, _, rfl⟩
      exact (die_rows h w.shared).has
  | env e =>
      rcases Program.exec_env hx with ⟨s', hs, rfl⟩
      have hs' : s' = outside w.shared e := (Option.some.inj hs).symm
      subst hs'
      exact (outside_rows w.shared e).1.has

/-- The answer says that there is no such order, authorization or
certificate. -/
def Page.Missing (p : Page) : Prop :=
  ∃ detail, p = .problem (Acme.problem 404 "malformed" detail)

/-- What the reader asks for is there; once it has found it, nothing more is
needed. -/
def Reader.Finds (expires : Nat) (s : State) : Reader → Prop
  | .orderAuth account id => s.db.HasOrder account id expires
  | .order acct id => s.db.HasOrder acct.id id expires
  | .orderAuthzs _ _ => True
  | .authzAuth account id => s.db.HasAuthz account id expires
  | .authz acct id => s.db.HasAuthz acct.id id expires
  | .authzChallenges _ _ => True
  | .write p => ¬ p.Missing
  | .done p => ¬ p.Missing
  | _ => False

theorem finds_of_exec
    {grace : Nat} {w w' : World State Handler} {a : Action Choice Request Outside}
    {expires : Nat}
    (hw : Program.Holds (Inv false) (fun p s h => Asserts false p s h ∧ Patient grace s h) w)
    (hx : frontend.exec w a = some w')
    (hdue : gcCutoff w.shared.now grace ≤ expires)
    {r : Reader}
    (hr : r.Finds expires w.shared) :
    r.Finds expires w'.shared := by
  cases r with
  | orderAuth account id => exact (rows_of_exec hw hx hdue).1 hr
  | order acct id => exact (rows_of_exec hw hx hdue).1 hr
  | authzAuth account id => exact (rows_of_exec hw hx hdue).2 hr
  | authz acct id => exact (rows_of_exec hw hx hdue).2 hr
  | _ => exact hr

theorem not_missing_problem
    {status : Nat} {code detail : String}
    (hstatus : status ≠ 404) :
    ¬ (Page.problem (problem status code detail)).Missing := by
  rintro ⟨detail', heq⟩
  simp only [problem, Page.problem.injEq, Problem.mk.injEq] at heq
  exact hstatus heq.1

theorem verifyJws_finds
    {k : Choice} {s : State} {requester expires : Nat}
    {go : Account → Reader}
    (hgo : ∀ a, a.id = requester → (go a).Finds expires s)
    {r : Reader}
    (hx : Reader.verifyJws k s requester go = some r) :
    r.Finds expires s := by
  have hrefused : ∀ p, (Reader.write (.refused p)).Finds expires s := by
    rintro p ⟨detail, heq⟩
    cases heq
  cases k with
  | ok =>
      simp only [Reader.verifyJws] at hx
      split at hx
      · cases hx
        exact hrefused _
      · rename_i a ha
        split at hx <;> cases hx
        · exact hgo a (mem_of_find?_key ha).2
        · exact hrefused _
  | fail _ => cases hx; exact hrefused _
  | refused _ => cases hx; exact hrefused _
  | issued _ _ => cases hx
  | parsed _ => cases hx

/-- Each statement of a reader that finds what it asks for. -/
theorem read_finds
    {k : Choice} {s : State} {expires : Nat} {r r' : Reader}
    (hs : Inv false s)
    (hr : r.Finds expires s)
    (hx : read k s r = some r') :
    r'.Finds expires s := by
  have hpage : ∀ p : OrderPage, ¬ (Page.order p).Missing := by
    rintro p ⟨detail, heq⟩
    cases heq
  have hauthz : ∀ p : AuthzPage, ¬ (Page.authz p).Missing := by
    rintro p ⟨detail, heq⟩
    cases heq
  cases r with
  | orderAuth account id =>
      refine verifyJws_finds ?_ hx
      intro a ha
      cases ha
      exact hr
  | order acct id =>
      rcases hr with ⟨o, hmem, hstub⟩
      simp only [Order.stub, Prod.mk.injEq] at hstub
      have hfound : s.db.orderById id = some o := by
        rw [← hstub.1]
        exact hs.ids.orderKey.find?_eq hmem
      cases k with
      | ok =>
          simp only [read, hfound, hstub.2.1, ne_eq, not_true_eq_false, if_false] at hx
          cases hx
          trivial
      | fail _ => cases hx; exact not_missing_problem (by simp)
      | _ => cases hx
  | orderAuthzs acct o =>
      cases k with
      | ok => cases hx; exact hpage _
      | fail _ => cases hx; exact not_missing_problem (by simp)
      | _ => cases hx
  | authzAuth account id =>
      refine verifyJws_finds ?_ hx
      intro a ha
      cases ha
      exact hr
  | authz acct id =>
      rcases hr with ⟨a, hmem, hstub⟩
      simp only [Authz.stub, Prod.mk.injEq] at hstub
      have hfound : s.db.authzById id = some a := by
        rw [← hstub.1]
        exact hs.ids.authzKey.find?_eq hmem
      cases k with
      | ok =>
          simp only [read, hfound, hstub.2.1, ne_eq, not_true_eq_false, if_false] at hx
          cases hx
          trivial
      | fail _ => cases hx; exact not_missing_problem (by simp)
      | _ => cases hx
  | authzChallenges acct a =>
      cases k with
      | ok => cases hx; exact hauthz _
      | fail _ => cases hx; exact not_missing_problem (by simp)
      | _ => cases hx
  | write p =>
      cases k with
      | ok => cases hx; exact hr
      | fail _ =>
          cases hx
          rintro ⟨detail, heq⟩
          cases heq
      | _ => cases hx
  | done p => cases hx
  | _ => exact hr.elim

/-- An account that asks for an order or an authorization of its own, and is
answered no later than `grace` after its expiry, is not told that there is none:
in runs whose collections allow that grace, however they are interleaved with
the request. -/
theorem page_until_grace
    {grace : Nat} {w w' : World State Handler} {r : Reader}
    {as : List (Action Choice Request Outside ⊕ Choice)} {page : Page} {expires : Nat}
    (hw : server.Reachable (Gracious grace) w)
    (hrun : reading.Run (Automaton.watched (Gracious grace)) (w, r) as (w', .done page))
    (hr : r.Finds expires w.shared)
    (htime : w'.shared.now ≤ expires * 1000000000 + grace) :
    ¬ page.Missing := by
  have hI : ∀ v, server.Reachable (Gracious grace) v →
      Program.Holds (Inv false) (fun p s h => Asserts false p s h ∧ Patient grace s h) v :=
    fun v hv => (patientOutline grace).sound hv
  have hdone := hrun.observe
    (J := fun v x => x.Finds expires v.shared ∨ (expires : Int) < gcCutoff v.shared.now grace)
    hI ?_ ?_ hw (Or.inl hr)
  · rcases hdone with hfinds | hlate
    · exact hfinds
    · simp only [gcCutoff,
        Int.fdiv_eq_ediv_of_nonneg _ (show (0 : Int) ≤ 1000000000 by omega)] at hlate
      omega
  · intro v a v' x hv _ _ hx hJ
    rcases hJ with hfinds | hlate
    · by_cases hdue : gcCutoff v.shared.now grace ≤ expires
      · exact Or.inl (finds_of_exec hv hx hdue hfinds)
      · right
        have hle := gcCutoff_mono (now_of_exec hv hx) (Nat.le_refl grace)
        omega
    · right
      have hle := gcCutoff_mono (now_of_exec hv hx) (Nat.le_refl grace)
      omega
  · intro v k x x' hv hx hJ
    exact hJ.imp (fun hfinds => read_finds hv.shared hfinds hx) fun hlate => hlate

/-- A collection runs a day after the sample order's expiry; then its account
reads the order's page. -/
def sampleCollected : List (Action Choice Request Outside ⊕ Choice) :=
  let steps : List (Action Choice Request Outside) :=
    [.env (.tick (2 * gcGrace)), .spawn 3 (.gc gcGrace)] ++ oks 3 4
  steps.map .inl ++ List.replicate 4 (.inr .ok)

/-- The order's page was read in time. -/
def readsInTime (x : World State Handler × Reader) : Bool :=
  match x.2 with
  | .done (.order _) => decide (x.1.shared.now ≤ 86400 * 1000000000 + gcGrace)
  | _ => false

theorem page_until_grace_sample :
    ∃ page : OrderPage, ¬ (Page.order page).Missing := by
  have hcheck :
      (server.follow (Gracious gcGrace) (World.idle sampleState) sampleOrder).any
        (fun w => decide (w.shared.db.HasOrder 0 1 86400) &&
          (reading.follow (Automaton.watched (Gracious gcGrace)) (w, .orderAuth 0 1)
            sampleCollected).any readsInTime) = true := by
    decide +kernel
  rcases Automaton.Run.exists_of_follow hcheck with ⟨w, hrun, hw⟩
  rw [Bool.and_eq_true] at hw
  rcases Automaton.Run.exists_of_follow hw.2 with ⟨⟨w', r⟩, hread, htime⟩
  have hreach := Automaton.Reachable.of_run sampleState_init hrun
  have hfinds : w.shared.db.HasOrder 0 1 86400 := of_decide_eq_true hw.1
  rw [readsInTime] at htime
  split at htime
  · rename_i page hpage
    cases hpage
    exact ⟨page, page_until_grace hreach hread hfinds (of_decide_eq_true htime)⟩
  · simp at htime

end Acme
end Yca
