import Yca.Acme.Handlers

/-!
# From the claim of an order to the answer

Once `handleFinalize` has claimed an order no other handler moves it: whether the order
ends `valid` or `invalid` is up to the steps of this one.  They are followed here for
every outcome of the CA, of reading the chain and of the statements, with the other
handlers in between.

Two error exits after the CA has issued leave without `SetOrderStatus`, and a failed
`SetOrderStatus` is ignored.  The chain is read by the common name after `yca sign` has
ended, so it need not be that of the certificate issued.
-/

namespace Yca
namespace Acme

open Yca.Core

section Outcomes

/-- How `yca sign` ends. -/
inductive Signing
  | refused (err : String)
  /-- The CA has issued this certificate, and the run fails all the same: it is cut off
  after a minute. -/
  | lost (err pem : String)
  | issued (cn pem : String)

/-- How the steps after `ClaimOrder` turn out. -/
structure Ending where
  nonce : Except String String
  sign : Signing
  /-- `yca get server --chain`. -/
  chain : Except String String
  inserted : Bool
  /-- Whether the `SetOrderStatus` that is reached succeeds. -/
  updated : Bool
  reread : Bool

/-- `ycaRunner.issue`. -/
def Ending.issue (out : Ending) : Except String (String × String) :=
  match out.nonce with
  | .error err => .error err
  | .ok _ =>
      match out.sign with
      | .refused err => .error err
      | .lost err _ => .error err
      | .issued cn _ =>
          match out.chain with
          | .error err => .error err
          | .ok chain => .ok (chain ++ "\n", cn)

/-- The certificate the CA has issued, if it has. -/
def Ending.certificate (out : Ending) : Option String :=
  match out.nonce, out.sign with
  | .error _, _ => none
  | .ok _, .refused _ => none
  | .ok _, .lost _ pem => some pem
  | .ok _, .issued _ pem => some pem

/-- The chain is that of this certificate: it comes first. -/
def Heads (pem chain : String) : Prop :=
  pem.toList <+: chain.toList

def statement (ok : Bool) : Choice :=
  if ok then .ok else .fail ""

/-- The outcomes as the handler's steps meet them, from `certMeta` on. -/
def Ending.record
    (parse : String → Option CertMeta)
    (out : Ending)
    (issued : String × String) : List Choice :=
  match parse issued.1 with
  | none => [.fail ""]
  | some info =>
      if out.inserted then [.parsed info, .ok, statement out.updated, statement out.reread]
      else [.parsed info, .fail ""]

/-- From `ycaRunner.issue` on. -/
def Ending.choices (parse : String → Option CertMeta) (out : Ending) : List Choice :=
  match out.issue with
  | .error err => [.fail err, statement out.updated]
  | .ok issued => .issued issued.1 issued.2 :: out.record parse issued

end Outcomes

section Runs

/-- The steps of one handler, with what others do after each. -/
def advance
    (p : Pid)
    (others : Nat → State → State) :
    List Choice → State → Handler → Option (State × Handler)
  | [], s, h => some (s, h)
  | k :: ks, s, h =>
      match next p k s h with
      | none => none
      | some (e, h') => advance p others ks (others ks.length (s.apply e)) h'

theorem advance_cons
    {p : Pid}
    {others : Nat → State → State}
    {k : Choice}
    {ks : List Choice}
    {s : State}
    {h h' : Handler}
    {e : Effect}
    (hnext : next p k s h = some (e, h')) :
    advance p others (k :: ks) s h = advance p others ks (others ks.length (s.apply e)) h' := by
  simp only [advance, hnext]

/-- What the tables hold of one order. -/
structure Share where
  orders : List Order
  certs : List Cert

def share (db : Db) (id : Nat) : Share where
  orders := db.orders.filter fun r => r.id == id
  certs := db.certs.filter fun c => c.orderId == id

/-- Steps of others that leave the rows of an order alone. -/
def Spares (id : Nat) (others : Nat → State → State) : Prop :=
  ∀ i s, share (others i s).db id = share s.db id

def Share.setStatus
    (x : Share)
    (status : OrderStatus)
    (certId : Option Nat)
    (error : Option Problem) : Share :=
  { x with
    orders := x.orders.map fun r => { r with status := status, certId := certId, error := error } }

def Share.claim (x : Share) (time : Nat) : Share :=
  { x with
    orders := updateWhere (fun r => r.status == .ready && decide (r.expires > time))
      (fun r => { r with status := .processing }) x.orders }

def Share.insert (x : Share) (c : Cert) : Share :=
  { x with certs := x.certs ++ [c] }

variable {id : Nat} {db : Db}

/-- The selected rows are those of the order. -/
theorem id_of_mem_share {r : Order} (h : r ∈ (share db id).orders) : (r.id == id) = true :=
  (List.mem_filter.mp h).2

theorem share_setOrderStatus
    (status : OrderStatus)
    (certId : Option Nat)
    (error : Option Problem) :
    share ((Stmt.setOrderStatus id status certId error).run db) id =
      (share db id).setStatus status certId error := by
  have horders : ((Stmt.setOrderStatus id status certId error).run db).orders.filter
      (fun r => r.id == id) = ((share db id).setStatus status certId error).orders := by
    refine (filter_updateWhere ?_ db.orders).trans (List.map_congr_left ?_)
    · intro r
      rfl
    · intro r hr
      rw [if_pos (id_of_mem_share hr)]
  rw [share, horders]
  rfl

theorem share_claimOrder (time : Nat) :
    share ((Stmt.claimOrder id time).run db) id = (share db id).claim time := by
  have horders : ((Stmt.claimOrder id time).run db).orders.filter (fun r => r.id == id) =
      ((share db id).claim time).orders := by
    refine (filter_updateWhere ?_ db.orders).trans (updateWhere_congr ?_)
    · intro r
      rfl
    · intro r hr
      rw [id_of_mem_share hr, Bool.true_and]
  rw [share, horders]
  rfl

theorem share_insertCert {c : Cert} (h : c.orderId = id) :
    share ((Stmt.insertCert c).run db) id = (share db id).insert c := by
  simp [share, Stmt.run, Share.insert, h]

end Runs

section Answer

variable {p : Pid} {others : Nat → State → State} {acct : Account} {o : Order}
  {authzs : List Authz} {parse : String → Option CertMeta} {out : Ending} {s : State} {time : Nat}

/-- The handler from `ClaimOrder` on. -/
def finish
    (p : Pid)
    (others : Nat → State → State)
    (parse : String → Option CertMeta)
    (acct : Account)
    (o : Order)
    (authzs : List Authz)
    (time : Nat)
    (out : Ending)
    (s : State) : Option (State × Handler) :=
  advance p others (.ok :: out.choices parse) s (.finalize (.claim acct o authzs time))

/-- The row `certMeta` completes. -/
def certOf (acct : Account) (o : Order) (id : Nat) (issued : String × String) (info : CertMeta) :
    Cert :=
  ⟨id, o.id, acct.id, issued.2, issued.1, info⟩

/-- What the handler makes of the rows of an order the CA has issued for, with the id it
draws. -/
def Ending.recorded
    (parse : String → Option CertMeta)
    (acct : Account)
    (o : Order)
    (out : Ending)
    (id : Nat)
    (issued : String × String)
    (x : Share) : Share :=
  match parse issued.1 with
  | none => x
  | some info =>
      if out.inserted then
        if out.updated then (x.insert (certOf acct o id issued info)).setStatus .valid (some id) none
        else x.insert (certOf acct o id issued info)
      else x

/-- What it makes of those of a claimed order. -/
def Ending.final
    (parse : String → Option CertMeta)
    (acct : Account)
    (o : Order)
    (out : Ending)
    (id : Nat)
    (x : Share) : Share :=
  match out.issue with
  | .error err => if out.updated then x.setStatus .invalid none (some (issueProblem err)) else x
  | .ok issued => out.recorded parse acct o id issued x

/-- The handler answers, and leaves these rows of the order. -/
def Leaves (p : Pid) (others : Nat → State → State) (ks : List Choice) (s : State) (h : Handler)
    (id : Nat) (x : Share) : Prop :=
  ∃ s' r, advance p others ks s h = some (s', .replied r) ∧ share s'.db id = x

/-- One step, and what the rest leaves. -/
theorem Leaves.step
    {k : Choice}
    {ks : List Choice}
    {h h' : Handler}
    {e : Effect}
    {id : Nat}
    {x : Share}
    (hnext : next p k s h = some (e, h'))
    (hrest : Leaves p others ks (others ks.length (s.apply e)) h' id x) :
    Leaves p others (k :: ks) s h id x := by
  rw [Leaves, advance_cons hnext]
  exact hrest

theorem Leaves.done {r : Reply} {id : Nat} {x : Share} (h : share s.db id = x) :
    Leaves p others [] s (.replied r) id x :=
  ⟨s, r, rfl, h⟩

section Tail

variable {x : Share}

/-- What a step leaves of the order, when the others have had their turn. -/
theorem Spares.after
    (hothers : Spares o.id others)
    {e : Effect}
    {i : Nat}
    (h : share (e.stmt.run s.db) o.id = x) :
    share (others i (s.apply e)).db o.id = x :=
  (hothers i _).trans h

theorem Spares.idle
    (hothers : Spares o.id others)
    (h : share s.db o.id = x)
    {events : List Event}
    {draws i : Nat} :
    share (others i (s.apply { events := events, draws := draws })).db o.id = x :=
  (hothers i _).trans h

/-- Reading the order again changes nothing, whether or not it is there. -/
theorem leaves_reload (hothers : Spares o.id others) (h : share s.db o.id = x) (reread : Bool) :
    Leaves p others [statement reread] s (.finalize (.reload o authzs)) o.id x := by
  have hstep (r : Reply)
      (hnext : next p (statement reread) s (.finalize (.reload o authzs)) = some ({}, .replied r)) :
      Leaves p others [statement reread] s (.finalize (.reload o authzs)) o.id x :=
    Leaves.step hnext (Leaves.done (hothers.idle h))
  cases reread with
  | false => exact hstep .panicked rfl
  | true =>
      cases hrow : s.db.orderById o.id with
      | none => exact hstep .panicked (by simp [next, finalizeStep, statement, hrow, goto])
      | some r =>
          exact hstep (.order 200 r authzs) (by simp [next, finalizeStep, statement, hrow, goto])

/-- The last `SetOrderStatus`; its error is ignored. -/
theorem leaves_finish
    (hothers : Spares o.id others)
    (h : share s.db o.id = x)
    (cert : Cert)
    (updated reread : Bool) :
    Leaves p others [statement updated, statement reread] s (.finalize (.finish o authzs cert)) o.id
      (if updated then x.setStatus .valid (some cert.id) none else x) := by
  cases updated with
  | false =>
      have hnext : next p (statement false) s (.finalize (.finish o authzs cert)) =
          some ({}, .finalize (.reload o authzs)) := rfl
      exact Leaves.step hnext (leaves_reload hothers (hothers.idle h) reread)
  | true =>
      have hnext : next p (statement true) s (.finalize (.finish o authzs cert)) =
          some ({ stmt := .setOrderStatus o.id .valid (some cert.id) none },
            .finalize (.reload o authzs)) := rfl
      refine Leaves.step hnext (leaves_reload hothers (hothers.after ?_) reread)
      rw [share_setOrderStatus, h, if_pos rfl]

/-- `SetOrderStatus(..., "invalid")`; its error is ignored. -/
theorem leaves_refused
    (hothers : Spares o.id others)
    (h : share s.db o.id = x)
    (err : Problem)
    (updated : Bool) :
    Leaves p others [statement updated] s (.finalize (.refused o err)) o.id
      (if updated then x.setStatus .invalid none (some err) else x) := by
  cases updated with
  | false =>
      have hnext : next p (statement false) s (.finalize (.refused o err)) =
          some ({}, .replied (.problem err)) := rfl
      exact Leaves.step hnext (Leaves.done (hothers.idle h))
  | true =>
      have hnext : next p (statement true) s (.finalize (.refused o err)) =
          some ({ stmt := .setOrderStatus o.id .invalid none (some err) },
            .replied (.problem err)) := rfl
      refine Leaves.step hnext (Leaves.done (hothers.after ?_))
      rw [share_setOrderStatus, h, if_pos rfl]

/-- What the steps from `certMeta` on leave of the order. -/
theorem leaves_certMeta
    (hothers : Spares o.id others)
    (h : share s.db o.id = x)
    (out : Ending)
    (issued : String × String) :
    Leaves p others (out.record parse issued) s
      (.finalize (.certMeta acct o authzs issued.1 issued.2)) o.id
      (out.recorded parse acct o s.nextId issued x) := by
  unfold Ending.record Ending.recorded
  cases parse issued.1 with
  | none => exact Leaves.step rfl (Leaves.done (hothers.idle h))
  | some info =>
      have hnext : next p (.parsed info) s (.finalize (.certMeta acct o authzs issued.1 issued.2)) =
          some ({ draws := 1 },
            .finalize (.store o authzs (certOf acct o s.nextId issued info))) := rfl
      cases out.inserted with
      | false => exact Leaves.step hnext (Leaves.step rfl (Leaves.done (hothers.idle (hothers.idle h))))
      | true =>
          refine Leaves.step hnext (Leaves.step rfl ?_)
          refine leaves_finish hothers (hothers.after ?_) (certOf acct o s.nextId issued info) _ _
          exact (share_insertCert rfl).trans
            (congrArg (fun y => y.insert (certOf acct o s.nextId issued info)) (hothers.idle h))

/-- What the steps from `ycaRunner.issue` on leave of it. -/
theorem leaves_issue (hothers : Spares o.id others) (h : share s.db o.id = x) (out : Ending) :
    ∃ id, Leaves p others (out.choices parse) s (.finalize (.issue acct o authzs)) o.id
      (out.final parse acct o id x) := by
  unfold Ending.choices Ending.final
  cases out.issue with
  | error err =>
      have hnext : next p (.fail err) s (.finalize (.issue acct o authzs)) =
          some ({ events := [.asked o.id] }, .finalize (.refused o (issueProblem err))) := rfl
      exact ⟨0, Leaves.step hnext (leaves_refused hothers (hothers.idle h) _ _)⟩
  | ok issued =>
      exact ⟨_, Leaves.step rfl (leaves_certMeta hothers (hothers.idle h) out issued)⟩

end Tail

/-- From `ClaimOrder` on: whatever happens, the handler answers. -/
theorem leaves_claim
    (p : Pid)
    (parse : String → Option CertMeta)
    (acct : Account)
    (authzs : List Authz)
    (hothers : Spares o.id others)
    (hclaim : s.db.orderClaimable o.id time = true)
    (out : Ending) :
    ∃ id, Leaves p others (.ok :: out.choices parse) s (.finalize (.claim acct o authzs time)) o.id
      (out.final parse acct o id ((share s.db o.id).claim time)) := by
  have hnext : next p .ok s (.finalize (.claim acct o authzs time)) =
      some ({ stmt := .claimOrder o.id time, events := [.orderClaimed o.id p] },
        .finalize (.issue acct o authzs)) := by
    simp [next, finalizeStep, hclaim]
  have hclaimed : share (others (out.choices parse).length
      (s.apply { stmt := .claimOrder o.id time, events := [.orderClaimed o.id p] })).db o.id =
        (share s.db o.id).claim time :=
    hothers.after (share_claimOrder time)
  obtain ⟨id, hrest⟩ := leaves_issue hothers hclaimed out
  exact ⟨id, Leaves.step hnext hrest⟩

end Answer

section Settled

/-- The order has ended: `valid` with the id of its certificate, or `invalid` with an
error. -/
def Order.Ended (certs : List Cert) (r : Order) : Prop :=
  (r.status = .valid ∧ ∃ c ∈ certs, r.certId = some c.id) ∨
    (r.status = .invalid ∧ r.error.isSome = true)

/-- The order has ended, and the certificate the CA has issued for it is recorded. -/
structure Settled (out : Ending) (before after : Share) : Prop where
  ended : ∀ r ∈ after.orders, r.Ended after.certs
  recorded : ∀ pem, out.certificate = some pem →
    ∃ c, after.certs = before.certs ++ [c] ∧ Heads pem c.chainPem

/-- Whatever the other handlers do to other orders, the handler answers and leaves an
order it has claimed settled. -/
def Settles
    (p : Pid)
    (parse : String → Option CertMeta)
    (acct : Account)
    (o : Order)
    (authzs : List Authz)
    (time : Nat)
    (out : Ending)
    (s : State) : Prop :=
  s.db.orderClaimable o.id time = true → ∀ others, Spares o.id others →
    ∃ s' r, advance p others (.ok :: out.choices parse) s
        (.finalize (.claim acct o authzs time)) = some (s', .replied r) ∧
      Settled out (share s.db o.id) (share s'.db o.id)

/-- The steps after the claim take one of the two ways to an end. -/
def Ending.Concludes (parse : String → Option CertMeta) (out : Ending) : Prop :=
  out.updated = true ∧
    (out.certificate = none ∨
      ∃ pem issued, out.certificate = some pem ∧ out.issue = .ok issued ∧
        Heads pem issued.1 ∧ (parse issued.1).isSome = true ∧ out.inserted = true)

section Ends

variable {parse : String → Option CertMeta} {acct : Account} {o : Order} {out : Ending} {id : Nat}
  {x : Share} {time : Nat}

/-- A claimed order is in `processing`. -/
theorem exists_processing
    {db : Db}
    (hclaim : db.orderClaimable o.id time = true) :
    ∃ r ∈ ((share db o.id).claim time).orders, r.status = .processing := by
  simp only [Db.orderClaimable, List.any_eq_true, Bool.and_eq_true, beq_iff_eq,
    decide_eq_true_eq] at hclaim
  obtain ⟨r, hr, ⟨hid, hready⟩, hexpires⟩ := hclaim
  refine ⟨{ r with status := .processing }, ?_, rfl⟩
  refine mem_updateWhere.mpr ⟨r, ?_, Or.inl ⟨?_, rfl⟩⟩
  · exact List.mem_filter.mpr ⟨hr, by simpa using hid⟩
  · simp [hready, hexpires]

/-- An order in `processing` has not ended. -/
theorem not_ended_of_processing
    {certs : List Cert}
    {r : Order}
    (h : r.status = .processing) :
    ¬ r.Ended certs := by
  rintro (⟨hvalid, _⟩ | ⟨hinvalid, _⟩)
  · rw [h] at hvalid
    cases hvalid
  · rw [h] at hinvalid
    cases hinvalid

/-- What `ycaRunner.issue` returns follows a certificate. -/
theorem exists_certificate {issued : String × String} (h : out.issue = .ok issued) :
    ∃ pem, out.certificate = some pem := by
  unfold Ending.issue at h
  unfold Ending.certificate
  cases hnonce : out.nonce with
  | error err => simp [hnonce] at h
  | ok nonce =>
      cases hsign : out.sign with
      | refused err => simp [hnonce, hsign] at h
      | lost err pem => exact ⟨pem, rfl⟩
      | issued cn pem => exact ⟨pem, rfl⟩

section Final

variable {before : Share} {issued : String × String}

/-- An order that is left in `processing` is not settled. -/
theorem not_settled_of_processing
    {after : Share}
    (hprocessing : ∃ r ∈ x.orders, r.status = .processing)
    (horders : after.orders = x.orders) :
    ¬ Settled out before after := by
  intro h
  obtain ⟨r, hr, hstatus⟩ := hprocessing
  exact not_ended_of_processing hstatus (h.ended r (horders ▸ hr))

/-- After `ycaRunner.issue` has failed and the order is `invalid`. -/
theorem settled_invalid_iff (hcerts : before.certs = x.certs) (err : Problem) :
    Settled out before (x.setStatus .invalid none (some err)) ↔ out.certificate = none := by
  constructor
  · intro h
    rw [Option.eq_none_iff_forall_ne_some]
    intro pem hpem
    obtain ⟨c, hc, _⟩ := h.recorded pem hpem
    rw [Share.setStatus, hcerts] at hc
    simp at hc
  · intro hnone
    constructor
    case ended =>
      intro r hr
      obtain ⟨r₀, _, rfl⟩ := List.mem_map.mp hr
      exact Or.inr ⟨rfl, rfl⟩
    case recorded =>
      intro pem hpem
      rw [hnone] at hpem
      cases hpem

/-- After the row was inserted and the order is `valid`. -/
theorem settled_valid_iff
    (hcerts : before.certs = x.certs)
    {pem : String}
    (hpem : out.certificate = some pem)
    (info : CertMeta) :
    Settled out before ((x.insert (certOf acct o id issued info)).setStatus .valid (some id) none) ↔
      Heads pem issued.1 := by
  constructor
  · intro h
    obtain ⟨c, hc, hheads⟩ := h.recorded pem hpem
    have hrow : x.certs ++ [certOf acct o id issued info] = x.certs ++ [c] := by
      rw [← hcerts, ← hc, hcerts]
      rfl
    rw [← List.singleton_inj.mp (List.append_cancel_left hrow)] at hheads
    exact hheads
  · intro hheads
    constructor
    case ended =>
      intro r hr
      obtain ⟨r₀, _, rfl⟩ := List.mem_map.mp hr
      refine Or.inl ⟨rfl, certOf acct o id issued info, ?_, rfl⟩
      exact List.mem_append_right _ List.mem_cons_self
    case recorded =>
      intro pem' hpem'
      refine ⟨certOf acct o id issued info, by rw [hcerts]; rfl, ?_⟩
      rw [← Option.some.inj (hpem.symm.trans hpem')]
      exact hheads

end Final

/-- What the handler leaves is settled exactly when its steps conclude. -/
theorem settled_final_iff
    {before : Share}
    (hcerts : before.certs = x.certs)
    (hprocessing : ∃ r ∈ x.orders, r.status = .processing) :
    Settled out before (out.final parse acct o id x) ↔ out.Concludes parse := by
  have hopen (after : Share) (horders : after.orders = x.orders) : ¬ Settled out before after :=
    not_settled_of_processing hprocessing horders
  unfold Ending.final Ending.Concludes
  cases hissue : out.issue with
  | error err =>
      cases hupdated : out.updated with
      | false => simpa using hopen x rfl
      | true =>
          have hinvalid : Settled out before (x.setStatus .invalid none (some (issueProblem err))) ↔
              out.certificate = none := settled_invalid_iff hcerts (issueProblem err)
          simpa using hinvalid
  | ok issued =>
      obtain ⟨pem, hpem⟩ := exists_certificate hissue
      simp only [Ending.recorded, hpem, Option.some.injEq, Except.ok.injEq, reduceCtorEq, false_or,
        exists_and_left, exists_eq_left']
      cases hparse : parse issued.1 with
      | none => simpa using hopen x rfl
      | some info =>
          cases hinserted : out.inserted with
          | false => simpa using hopen x rfl
          | true =>
              cases hupdated : out.updated with
              | false =>
                  have hinsert := hopen (x.insert (certOf acct o id issued info)) rfl
                  simpa using hinsert
              | true => simpa using settled_valid_iff hcerts hpem info

/-- An order that `handleFinalize` has claimed is settled when it answers, exactly when
the last update succeeds and either the CA has not issued, or the chain of the very
certificate it has issued is read and stored. -/
theorem settles_iff
    (p : Pid)
    (parse : String → Option CertMeta)
    (acct : Account)
    (o : Order)
    (authzs : List Authz)
    (time : Nat)
    (out : Ending)
    (s : State) :
    Settles p parse acct o authzs time out s ↔
      (s.db.orderClaimable o.id time = true → out.Concludes parse) := by
  have hsettled (id : Nat) (hclaim : s.db.orderClaimable o.id time = true) :
      Settled out (share s.db o.id) (out.final parse acct o id ((share s.db o.id).claim time)) ↔
        out.Concludes parse :=
    settled_final_iff rfl (exists_processing hclaim)
  constructor
  · intro h hclaim
    have halone : Spares o.id fun _ s => s := fun _ _ => rfl
    obtain ⟨id, s', r, hruns, hshare⟩ := leaves_claim p parse acct authzs halone hclaim out
    obtain ⟨s'', r', hruns', hends⟩ := h hclaim _ halone
    have hsame : s' = s'' := (Prod.mk.inj (Option.some.inj (hruns.symm.trans hruns'))).1
    rw [← hsame, hshare] at hends
    exact (hsettled id hclaim).mp hends
  · intro h hclaim others hothers
    obtain ⟨id, s', r, hruns, hshare⟩ := leaves_claim p parse acct authzs hothers hclaim out
    refine ⟨s', r, hruns, ?_⟩
    rw [hshare]
    exact (hsettled id hclaim).mpr (h hclaim)

/-- A certificate is issued, and the database does not take its row. -/
def unstored : Ending where
  nonce := .ok "n"
  sign := .issued "a.ca" "pem"
  chain := .ok "pem"
  inserted := false
  updated := true
  reread := true

/-- An order ready for issuance. -/
def readyOrder : Order :=
  ⟨1, 7, .ready, ["a.ca"], 2000, none, none⟩

def readyState : State where
  cfg := ⟨true, fun c => c⟩
  db := ⟨[], [], [readyOrder], [], [], []⟩
  now := 0
  nextId := 2
  log := []

/-- The order stays in `processing`, and the certificate is recorded nowhere. -/
theorem order_left_processing :
    ¬ Settles 0 (fun _ => some ⟨"44", "", 0, 90⟩) ⟨7, "", "", "valid"⟩ readyOrder [] 1000 unstored
        readyState ∧
      ((advance 0 (fun _ s => s) (.ok :: unstored.choices fun _ => some ⟨"44", "", 0, 90⟩) readyState
          (.finalize (.claim ⟨7, "", "", "valid"⟩ readyOrder [] 1000))).map fun w =>
        (w.1.db.orders.map Order.status, w.1.db.certs)) = some ([.processing], []) := by
  refine ⟨?_, by decide⟩
  intro h
  obtain ⟨s', r, hruns, hends⟩ := h (by decide) (fun _ s => s) fun _ _ => rfl
  obtain ⟨c, hc, _⟩ := hends.recorded "pem" (by decide)
  have hcerts : (advance 0 (fun _ s => s) (.ok :: unstored.choices fun _ => some ⟨"44", "", 0, 90⟩)
      readyState (.finalize (.claim ⟨7, "", "", "valid"⟩ readyOrder [] 1000))).map
        (fun w => (share w.1.db readyOrder.id).certs) = some [] := by
    decide
  rw [hruns] at hcerts
  have hnone : (share s'.db readyOrder.id).certs = [] := Option.some.inj hcerts
  rw [hnone] at hc
  simp at hc

end Ends

end Settled

end Acme
end Yca
