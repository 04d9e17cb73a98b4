import Yca.Acme.Statements

/-!
# Authorizations over whole runs

The properties of `handleChallenge` and `ClaimChallenge` that hold however the
handlers are interleaved: one challenge of an authorization is ever attempted,
a decided authorization stays as it is, and an order with a rejected
authorization is never offered for issuance again.  On the other side, an order
that `ClaimOrder` accepts has a proved authorization for each of its
identifiers, and the run passed the check that admitted it.
-/

namespace Yca
namespace Acme

open Yca.Core

section Runs

variable
  {strict : Bool} {w w' : World State Handler}
  {as : List (Action Choice Request Outside)}

/-- What no change to the tables destroys survives a run. -/
theorem run_stable
    {P : State → Prop}
    (hP : ∀ s s' p h, Inv strict s → Change strict p h s s' → P s → P s')
    (hw : server.Reachable (Presents strict) w)
    (hrun : server.Run (Presents strict) w as w')
    (hPw : P w.shared) :
    P w'.shared := by
  have hstep : ∀ s k s',
      Program.Holds (Inv strict) (Asserts strict) s →
      Program.Holds (Inv strict) (Asserts strict) s' →
      Presents strict s k → server.exec s k = some s' → P s.shared → P s'.shared := by
    intro s k s' hs _ _ hx hPs
    rcases change_of_exec hs hx with ⟨p, h, hc⟩
    exact hP _ _ p h hs.shared hc hPs
  exact Automaton.Run.stable (fun _ => holds_of_reachable) hstep hw hrun hPw

/-- The history only grows. -/
theorem log_of_run
    (hw : server.Reachable (Presents strict) w)
    (hrun : server.Run (Presents strict) w as w')
    {ev : Event}
    (hev : ev ∈ w.shared.log) :
    ev ∈ w'.shared.log :=
  run_stable (fun _ _ _ _ _ hc h => hc.log _ h) hw hrun hev

/-- A decided authorization keeps its status for as long as its row exists. -/
theorem authz_status_of_run
    (hw : server.Reachable (Presents strict) w)
    (hrun : server.Run (Presents strict) w as w')
    {a a' : Authz}
    (ha : a ∈ w.shared.db.authzs)
    (ha' : a' ∈ w'.shared.db.authzs)
    (hid : a'.id = a.id)
    (hdecided : a.status ≠ .pending) :
    a'.status = a.status := by
  have hinv := (holds_of_reachable hw).shared
  have hall : a.id < w'.shared.nextId ∧
      ∀ x ∈ w'.shared.db.authzs, x.id = a.id → x.status = a.status := by
    have hkeep : ∀ s s' p h, Inv strict s → Change strict p h s s' →
        (a.id < s.nextId ∧ ∀ x ∈ s.db.authzs, x.id = a.id → x.status = a.status) →
        a.id < s'.nextId ∧ ∀ x ∈ s'.db.authzs, x.id = a.id → x.status = a.status := by
      intro s s' p h _ hc hs
      refine ⟨Nat.lt_of_lt_of_le hs.1 hc.nextId, hc.authz_row hs.1 ?_ hs.2⟩
      intro x x' hm hx
      -- The only moves start from `pending`.
      cases hm with
      | same => exact hx
      | invalid _ hpending => exact absurd (hx.symm.trans hpending) hdecided
      | valid _ hpending _ _ _ => exact absurd (hx.symm.trans hpending) hdecided
    refine run_stable hkeep hw hrun ⟨hinv.ids.authz a ha, ?_⟩
    intro x hx hxid
    rw [hinv.ids.authzKey.eq hx ha hxid]
  exact hall.2 a' ha' hid

end Runs

/-- In any run: at most one challenge of an authorization ever leaves
`pending`, an authorization that has left `pending` keeps its status, and an
order with an invalid authorization is not `ready` then or later. -/
theorem challenge_runs_exclusive
    {w w' : World State Handler}
    {as : List (Action Choice Request Outside)}
    (hw : server.Reachable (Presents false) w)
    (hrun : server.Run (Presents false) w as w') :
    (∀ c ∈ w.shared.db.challenges, c.status ≠ .pending →
      ∀ c' ∈ w'.shared.db.challenges, c'.status ≠ .pending →
      c'.authzId = c.authzId → c'.id = c.id)
    ∧
    (∀ a ∈ w.shared.db.authzs, a.status ≠ .pending →
      ∀ a' ∈ w'.shared.db.authzs, a'.id = a.id → a'.status = a.status)
    ∧
    (∀ a ∈ w.shared.db.authzs, a.status = .invalid →
      ∀ r ∈ w'.shared.db.orders, r.id = a.orderId → r.status ≠ .ready) := by
  have hinv := (holds_of_reachable hw).shared
  have hinv' := (holds_of_reachable (hw.run hrun)).shared
  refine ⟨?_, ?_, ?_⟩
  · intro c hc hst c' hc' hst' hauthz
    rcases hinv.claims.row c hc hst with ⟨o, p, hev⟩
    rcases hinv'.claims.row c' hc' hst' with ⟨o', p', hev'⟩
    have hev := log_of_run hw hrun hev
    rw [hauthz] at hev'
    exact (hinv'.claims.once _ _ _ _ _ _ _ hev' hev).1
  · intro a ha hst a' ha' hid
    exact authz_status_of_run hw hrun ha ha' hid hst
  · intro a ha hst r hr hid hready
    have hdecided : a.status ≠ .pending := by simp [hst]
    rcases hinv.decisions.claimed a ha hdecided with ⟨c, o, p, hev⟩
    have ho := (hinv.claims.used _ _ _ _ hev a ha rfl).1
    have hev' := log_of_run hw hrun hev
    rcases hinv'.claims.kept _ _ _ _ hev' r hr (hid.trans ho) with ⟨x, hx, hxid⟩
    have hxinvalid : x.status = .invalid :=
      (authz_status_of_run hw hrun ha hx hxid hdecided).trans hst
    have hxorder := (hinv'.claims.used _ _ _ _ hev' x hx hxid).1
    have hcov := hinv'.progress.covered r hr (Or.inl hready)
    have hxvalid := hcov.valid x hx (hxorder.trans (hid.trans ho).symm)
    simp [hxinvalid] at hxvalid

/-- A server with one account under an open credential. -/
def sampleState : State where
  cfg := ⟨true, id⟩
  db := ⟨[⟨"kid", []⟩], [⟨0, "thumb", "kid", "valid"⟩], [], [], [], []⟩
  now := 0
  nextId := 1
  log := []

theorem sampleState_init :
    server.init (World.idle sampleState) :=
  ⟨⟨rfl, rfl, rfl, rfl⟩, World.idle_quiet _⟩

/-- The next `n` steps of a process succeed. -/
def oks (p : Pid) (n : Nat) : List (Action Choice Request Outside) :=
  List.replicate n (.act p .ok)

/-- An order for one name: order 1, authorization 2, challenges 3 and 5. -/
def sampleOrder : List (Action Choice Request Outside) :=
  .spawn 0 (.newOrder 0 [⟨"dns", "a.ca"⟩]) :: oks 0 9

/-- The http-01 challenge fails; then the dns-01 challenge is posted. -/
theorem challenge_runs_exclusive_sample :
    ∃ w w' : World State Handler,
      (∃ a ∈ w.shared.db.authzs, a.status = .invalid) ∧
      (∃ r ∈ w'.shared.db.orders, r.id = 1) ∧
      ∀ a ∈ w.shared.db.authzs, a.status = .invalid →
        ∀ r ∈ w'.shared.db.orders, r.id = a.orderId → r.status ≠ .ready := by
  have hcheck :
      (server.follow (Presents false) (World.idle sampleState)
        (sampleOrder ++ .spawn 1 (.challenge 0 3 false) :: oks 1 5 ++
          .act 1 (.fail "no answer") :: oks 1 2)).any
        (fun w => decide (∃ a ∈ w.shared.db.authzs, a.status = .invalid) &&
          (server.follow (Presents false) w
            (.spawn 2 (.challenge 0 5 false) :: oks 2 3 ++ oks 1 2)).any
            fun w' => decide (∃ r ∈ w'.shared.db.orders, r.id = 1)) = true := by
    decide
  rcases Automaton.Run.exists_of_follow hcheck with ⟨w, hrun, hw⟩
  rw [Bool.and_eq_true] at hw
  rcases Automaton.Run.exists_of_follow hw.2 with ⟨w', hrun', hw'⟩
  have hreach := Automaton.Reachable.of_run sampleState_init hrun
  exact ⟨w, w', of_decide_eq_true hw.1, of_decide_eq_true hw',
    (challenge_runs_exclusive hreach hrun').2.2⟩

/-- The identifiers of an order are distinct host names under at most one
wildcard label. -/
theorem identifiers_of_reachable
    {strict : Bool} {w : World State Handler}
    (hw : server.Reachable (Presents strict) w)
    {r : Order}
    (hr : r ∈ w.shared.db.orders) :
    r.identifiers.Nodup ∧ ∀ n ∈ r.identifiers, hostSafe (splitWildcard n).1 = true := by
  have hinv := (holds_of_reachable hw).shared
  rcases hinv.origins.order r hr with ⟨o, acct, grants, p, t, hev, _, _, hnames, _⟩
  rcases hinv.origins.opened _ _ _ _ _ hev with ⟨_, _, _, honames, hgranted⟩
  rw [← hnames, honames]
  refine ⟨hgranted.nodup, ?_⟩
  intro n hn
  rcases List.mem_map.mp hn with ⟨g, hg, rfl⟩
  exact hgranted.host g hg

/-- A valid authorization of the order and its account for the name, claimed for
a challenge that was validated with a key authorization of that account. -/
def Authorized (s : State) (r : Order) (name : String) : Prop :=
  ∃ a ∈ s.db.authzs,
    a.orderId = r.id ∧ a.accountId = r.accountId ∧
    (a.identifier, a.wildcard) = splitWildcard name ∧
    a.status = .valid ∧
    ∃ e o p, Event.proved e ∈ s.log ∧ e.Supports a ∧
      Event.claimed a.id e.challenge.id o p ∈ s.log

/-- When `ClaimOrder` succeeds, every identifier of the order is authorized. -/
theorem authorized_of_claimable
    {w : World State Handler}
    (hw : server.Reachable (Presents true) w)
    {p : Pid} {acct : Account} {o : Order} {authzs : List Authz} {time : Nat}
    (hp : w.procs p = some (.finalize (.claim acct o authzs time)))
    (hclaim : w.shared.db.orderClaimable o.id time = true) :
    ∃ r ∈ w.shared.db.orders,
      r.id = o.id ∧ r.status = .ready ∧
      ∀ name ∈ r.identifiers, Authorized w.shared r name := by
  have hholds := holds_of_reachable hw
  have hinv := hholds.shared
  have hread : Read w.shared o time := hholds.local_ p _ hp
  simp only [Db.orderClaimable, List.any_eq_true, Bool.and_eq_true, beq_iff_eq,
    decide_eq_true_eq] at hclaim
  rcases hclaim with ⟨r, hr, ⟨hid, hready⟩, hexp⟩
  rcases hinv.origins.order r hr with ⟨order, acct', grants, q, t, hev, hoid, hacct, hnames, hoexp⟩
  have hnotlate : ¬ Late w.shared.log r.id := by
    rintro ⟨order', acct₁, grants₁, q₁, t₁, hev₁, hid₁, hexp₁⟩
    rcases hread with ⟨o₂, acct₂, grants₂, q₂, t₂, hev₂, hid₂, ht₂⟩
    have h₁ := (hinv.origins.once _ _ _ _ _ _ _ _ _ _ hev₁ hev (hid₁.trans hoid.symm)).1
    have h₂ := (hinv.origins.once _ _ _ _ _ _ _ _ _ _ hev₁ hev₂
      (hid₁.trans (hid.trans hid₂.symm))).2.2
    rw [h₁, hoexp, h₂] at hexp₁
    omega
  have hcov := hinv.progress.covered r hr (Or.inl hready)
  refine ⟨r, hr, hid, hready, ?_⟩
  intro name hname
  rcases hinv.progress.complete r hr hcov.known hnotlate name hname with ⟨a, ha, horder, hsplit⟩
  have hvalid := hcov.valid a ha horder
  rcases hinv.origins.authz a ha with ⟨o₁, acct₁, grants₁, q₁, t₁, hev₁, hid₁, hacct₁, _⟩
  have h₁ := (hinv.origins.once _ _ _ _ _ _ _ _ _ _ hev₁ hev
    (hid₁.trans (horder.trans hoid.symm))).1
  subst h₁
  exact ⟨a, ha, horder, hacct₁.symm.trans hacct, hsplit, hvalid,
    hinv.decisions.proved a ha hvalid⟩

section Permission

variable (w₀ : World State Handler) (as : List (Action Choice Request Outside))

/-- The run from `w₀` passed a world with `P`, in which process `q` took a step,
and no handler was started as `q` since. -/
def Stepped (q : Pid) (P : World State Handler → Prop) : Prop :=
  ∃ js ls v, as = js ++ .act q .ok :: ls ∧ server.Run (Presents true) w₀ js v ∧ P v ∧
    ∀ r, Action.spawn q r ∉ ls

/-- The handler that runs as `q` read this row of a valid account in
`verifyJWS`. -/
def Authenticated (q : Pid) (acct : Account) : Prop :=
  Stepped w₀ as q fun v =>
    ∃ account ids,
      v.procs q = some (.newOrder (.auth account ids)) ∧
      v.shared.db.accountById account = some acct ∧ acct.status = "valid"

/-- The handler that runs as `q` took the name from its payload, and the
credential of the account, in the table when the name was checked, admitted
it. -/
def Vetted (q : Pid) (acct : Account) (g : Grant) : Prop :=
  Stepped w₀ as q fun v =>
    ∃ id rest grants,
      v.procs q = some (.newOrder (.check acct (id :: rest) grants)) ∧
      g.name = toLower v.shared.cfg.rune id.value ∧
      v.shared.db.getEab acct.eabKid = some g.cred ∧
      allowAdmits g.cred.allow g.name = true

/-- What a newOrder handler has gone through before it inserts its order. -/
structure Checked (q : Pid) (acct : Account) (grants : List Grant) : Prop where
  account : Authenticated w₀ as q acct
  names : ∀ g ∈ grants, Vetted w₀ as q acct g

/-- Process `q` inserted the order with this id for these names, checked
before. -/
def Inserted (order : Nat) (q : Pid) (acct : Account) (grants : List Grant) : Prop :=
  ∃ js ls u expires, as = js ++ .act q .ok :: ls ∧ server.Run (Presents true) w₀ js u ∧
    u.procs q = some (.newOrder (.insert acct grants expires)) ∧
    u.shared.nextId = order ∧ Checked w₀ js q acct grants

/-- The name is one of those the order's handler had checked for the account
before it inserted the order. -/
def Permitted (r : Order) (name : String) : Prop :=
  ∃ q acct grants, acct.id = r.accountId ∧ (∃ g ∈ grants, g.name = name) ∧
    Inserted w₀ as r.id q acct grants

/-- The account and the names of a newOrder handler that has no order yet. -/
def Handler.checked : Handler → Option (Account × List Grant)
  | .newOrder (.check acct _ grants) => some (acct, grants)
  | .newOrder (.insert acct grants _) => some (acct, grants)
  | _ => none

/-- What the run so far says of its newOrder handlers and their orders. -/
structure Permission (w : World State Handler) : Prop where
  handler : ∀ q h acct grants,
    w.procs q = some h → h.checked = some (acct, grants) → Checked w₀ as q acct grants
  order : ∀ o acct grants q t,
    Event.opened o acct grants q t ∈ w.shared.log → Inserted w₀ as o.id q acct grants

variable {w₀ as}

/-- The run goes on, and `q` is the handler it was. -/
theorem Stepped.more
    {q : Pid} {P : World State Handler → Prop} {a : Action Choice Request Outside}
    (h : Stepped w₀ as q P)
    (ha : ∀ r, a ≠ .spawn q r) :
    Stepped w₀ (as ++ [a]) q P := by
  rcases h with ⟨js, ls, v, rfl, hrun, hP, hls⟩
  refine ⟨js, ls ++ [a], v, by simp, hrun, hP, ?_⟩
  intro r hmem
  rcases List.mem_append.mp hmem with hold | hnew
  · exact hls r hold
  · exact ha r (List.mem_singleton.mp hnew).symm

theorem Checked.more
    {q : Pid} {acct : Account} {grants : List Grant} {a : Action Choice Request Outside}
    (h : Checked w₀ as q acct grants)
    (ha : ∀ r, a ≠ .spawn q r) :
    Checked w₀ (as ++ [a]) q acct grants where
  account := Stepped.more h.account ha
  names g hg := Stepped.more (h.names g hg) ha

theorem Inserted.more
    {order : Nat} {q : Pid} {acct : Account} {grants : List Grant}
    {a : Action Choice Request Outside}
    (h : Inserted w₀ as order q acct grants) :
    Inserted w₀ (as ++ [a]) order q acct grants := by
  rcases h with ⟨js, ls, u, expires, rfl, h⟩
  exact ⟨js, ls ++ [a], u, expires, by simp, h⟩

/-- A step that runs as `q`. -/
theorem Stepped.now
    {q : Pid} {P : World State Handler → Prop} {w : World State Handler}
    (hrun : server.Run (Presents true) w₀ as w)
    (hP : P w) :
    Stepped w₀ (as ++ [.act q .ok]) q P :=
  ⟨as, [], w, rfl, hrun, hP, fun _ h => by cases h⟩

section Step

variable {w : World State Handler} {p : Pid} {k : Choice} {h : Handler} {out : Outcome}

/-- A newOrder handler's own step. -/
theorem checked_next
    (hrun : server.Run (Presents true) w₀ as w)
    (hperm : Permission w₀ as w)
    (hp : w.procs p = some h)
    (hx : next p k w.shared h = some out)
    {acct : Account} {grants : List Grant}
    (hout : out.2.checked = some (acct, grants)) :
    Checked w₀ (as ++ [.act p k]) p acct grants := by
  have hsame : ∀ r, Action.act p k ≠ (.spawn p r : Action Choice Request Outside) := by
    intro r heq
    cases heq
  cases hgo : out.2 with
  | newOrder pc' =>
      rcases next_newOrder hx hgo with ⟨pc, rfl⟩
      clear hgo
      cases newOrder_step hx with
      | @accepted account ids _ hrow hvalid _ =>
          cases hout
          exact ⟨Stepped.now hrun ⟨account, ids, hp, hrow, hvalid⟩, fun g hg => by cases hg⟩
      | @granted _ id rest gs cred hshape hcred hallow =>
          cases hout
          have hbefore := (hperm.handler p _ _ _ hp rfl).more hsame
          refine ⟨hbefore.account, ?_⟩
          intro g hg
          split at hg
          · exact hbefore.names g hg
          · rcases List.mem_append.mp hg with hold | hnew
            · exact hbefore.names g hold
            · rw [List.mem_singleton] at hnew
              subst hnew
              exact Stepped.now hrun ⟨id, rest, gs, hp, rfl, hcred, hallow⟩
      | cleared =>
          cases hout
          exact (hperm.handler p _ _ _ hp rfl).more hsame
      | _ => cases hout
  | _ =>
      rw [hgo] at hout
      cases hout

/-- An order is opened by `InsertOrder`. -/
theorem inserted_next
    (hrun : server.Run (Presents true) w₀ as w)
    (hperm : Permission w₀ as w)
    (hp : w.procs p = some h)
    (hx : next p k w.shared h = some out)
    {o : Order} {acct : Account} {grants : List Grant} {q : Pid} {t : Nat}
    (hev : Event.opened o acct grants q t ∈ out.1.events) :
    Inserted w₀ (as ++ [.act p k]) o.id q acct grants := by
  rcases next_opened hx hev with ⟨rfl, rfl, _, _, expires, rfl, rfl⟩
  exact ⟨as, [], w, _, rfl, hrun, hp, rfl, hperm.handler q _ _ _ hp rfl⟩

/-- The run so far, one step on. -/
theorem Permission.next
    {w' : World State Handler} {a : Action Choice Request Outside}
    (hrun : server.Run (Presents true) w₀ as w)
    (hperm : Permission w₀ as w)
    (hx : server.exec w a = some w') :
    Permission w₀ (as ++ [a]) w' := by
  have hx : frontend.exec w a = some w' := hx
  cases a with
  | spawn p r =>
      rcases Program.exec_spawn hx with ⟨_, rfl⟩
      refine ⟨?_, fun o acct grants q t hev => (hperm.order o acct grants q t hev).more⟩
      intro q h acct grants hq hchecked
      by_cases hqp : q = p
      · subst hqp
        rw [World.put_procs_self] at hq
        cases hq
        cases r <;> cases hchecked
      · rw [World.put_procs_of_ne _ _ hqp] at hq
        refine (hperm.handler q h acct grants hq hchecked).more ?_
        intro r' heq
        cases heq
        exact hqp rfl
  | act p k =>
      rcases Program.exec_act hx with ⟨h, s', l, hp, hact, rfl⟩
      rcases frontend_act hact with ⟨e, h', hnext, rfl, rfl⟩
      refine ⟨?_, ?_⟩
      · intro q m acct grants hq hchecked
        by_cases hqp : q = p
        · subst hqp
          rw [World.put_procs_self] at hq
          cases hq
          exact checked_next hrun hperm hp hnext hchecked
        · rw [World.put_procs_of_ne _ _ hqp] at hq
          refine (hperm.handler q m acct grants hq hchecked).more ?_
          intro r heq
          cases heq
      · intro o acct grants q t hev
        rcases List.mem_append.mp hev with hold | hnew
        · exact (hperm.order o acct grants q t hold).more
        · exact inserted_next hrun hperm hp hnext hnew
  | crash p =>
      rcases Program.exec_crash hx with ⟨h, hp, rfl⟩
      refine ⟨?_, fun o acct grants q t hev => (hperm.order o acct grants q t ?_).more⟩
      · intro q m acct grants hq hchecked
        by_cases hqp : q = p
        · subst hqp
          rw [World.put_procs_self] at hq
          cases hq
        · rw [World.put_procs_of_ne _ _ hqp] at hq
          refine (hperm.handler q m acct grants hq hchecked).more ?_
          intro r heq
          cases heq
      · exact die_opened hev
  | env e =>
      rcases Program.exec_env hx with ⟨s', hs, rfl⟩
      have hs' : s' = outside w.shared e := (Option.some.inj hs).symm
      subst hs'
      refine ⟨?_, fun o acct grants q t hev => (hperm.order o acct grants q t ?_).more⟩
      · intro q m acct grants hq hchecked
        refine (hperm.handler q m acct grants hq hchecked).more ?_
        intro r heq
        cases heq
      · rw [(outside_rows w.shared e).2] at hev
        exact hev

end Step

/-- Every order of a run was inserted by a handler that had checked its names. -/
theorem permission_of_run
    {w : World State Handler}
    (hinit : server.init w₀)
    (hrun : server.Run (Presents true) w₀ as w) :
    Permission w₀ as w := by
  refine hrun.so_far (P := Permission w₀) ⟨?_, ?_⟩ ?_
  · intro q h acct grants hq
    rw [hinit.2 q] at hq
    cases hq
  · intro o acct grants q t hev
    rw [hinit.1.2.2.2] at hev
    cases hev
  · intro js m k m' hjs hperm _ hx
    exact hperm.next hjs hx

end Permission

/-- What stands behind one identifier of an order, after a run from `w₀`. -/
structure Backed (w₀ : World State Handler) (as : List (Action Choice Request Outside))
    (s : State) (r : Order) (name : String) : Prop where
  authorized : Authorized s r name
  permitted : Permitted w₀ as r name

/-- When `ClaimOrder` succeeds, every identifier of the order is backed. -/
theorem claimOrder_backed
    {w₀ w : World State Handler}
    {as : List (Action Choice Request Outside)}
    (hinit : server.init w₀)
    (hrun : server.Run (Presents true) w₀ as w)
    {p : Pid} {acct : Account} {o : Order} {authzs : List Authz} {time : Nat}
    (hp : w.procs p = some (.finalize (.claim acct o authzs time)))
    (hclaim : w.shared.db.orderClaimable o.id time = true) :
    ∃ r ∈ w.shared.db.orders,
      r.id = o.id ∧ r.status = .ready ∧
      ∀ name ∈ r.identifiers, Backed w₀ as w.shared r name := by
  have hw := Automaton.Reachable.of_run hinit hrun
  rcases authorized_of_claimable hw hp hclaim with ⟨r, hr, hid, hready, hauthorized⟩
  refine ⟨r, hr, hid, hready, ?_⟩
  intro name hname
  refine ⟨hauthorized name hname, ?_⟩
  have hinv := (holds_of_reachable hw).shared
  rcases hinv.origins.order r hr with ⟨order, acct', grants, q, t, hev, hoid, hacct, hnames, _⟩
  rcases hinv.origins.opened _ _ _ _ _ hev with ⟨_, _, hoacct, honames, _⟩
  rw [← hnames, honames, List.mem_map] at hname
  have hinserted := (permission_of_run hinit hrun).order _ _ _ _ _ hev
  rw [hoid] at hinserted
  exact ⟨q, acct', grants, hoacct.symm.trans hacct, hname, hinserted⟩

/-- Process 2 is about to claim the first order, which it can. -/
def claimsFirst (w : World State Handler) : Bool :=
  match w.procs 2 with
  | some (.finalize (.claim _ o _ time)) => decide (o.id = 1) && w.shared.db.orderClaimable o.id time
  | _ => false

/-- An order for one name, proved by http-01, reaches `ClaimOrder`. -/
theorem claimOrder_backed_sample :
    ∃ (as : List (Action Choice Request Outside)) (w : World State Handler),
      server.Run (Presents true) (World.idle sampleState) as w ∧
      ∃ r ∈ w.shared.db.orders, r.id = 1 ∧ r.status = .ready ∧
        ∀ name ∈ r.identifiers, Backed (World.idle sampleState) as w.shared r name := by
  let csr : GoCsr := ⟨"a.ca", [], [], [], []⟩
  have hcheck :
      (server.follow (Presents true) (World.idle sampleState)
        (sampleOrder ++ .spawn 1 (.challenge 0 3 false) :: oks 1 11 ++
          .spawn 2 (.finalize 0 1 (.csr csr)) :: oks 2 3)).any claimsFirst = true := by
    decide
  rcases Automaton.Run.exists_of_follow hcheck with ⟨w, hrun, hw⟩
  rw [claimsFirst] at hw
  split at hw
  · rename_i acct o authzs time hp
    rw [Bool.and_eq_true] at hw
    have hid := of_decide_eq_true hw.1
    rcases claimOrder_backed sampleState_init hrun hp hw.2 with ⟨r, hr, hrid, hrest⟩
    exact ⟨_, w, hrun, r, hr, hrid.trans hid, hrest⟩
  · simp at hw

end Acme
end Yca
