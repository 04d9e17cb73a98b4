import Yca.Acme.KeyChange

/-!
# Deactivated accounts

`handleAccount` calls deactivation irreversible: "every later JWS is refused".
The status is read by `verifyJWS`, in the second step of a handler, and not
again.  So a request of the account that had passed that step when it was
deactivated still goes through; every other one does nothing for the account any
more, and no request makes the account valid again.
-/

namespace Yca
namespace Acme
namespace Registry

open Yca.Core

section Runs

variable {κ : Type} (C : Codec κ) (S : Server)

/-- All runs. -/
def allCalls : (calls C S).Guarded :=
  machine.recordPolicy (handle C S) fun _ _ _ _ => True

instance
    (w : World Desk (Recorded Desk Call Handler))
    (a : Action Choice Call Outside) :
    Decidable (allCalls C S w a) := by
  unfold allCalls
  infer_instance

/-- The account is there, and deactivated. -/
def Closed (id : String) (t : Tables) : Prop :=
  ∃ a, t.accountByID id = some a ∧ a.status = "deactivated"

/-- Process `p` serves a request of account `id`: `verifyJWS` accepted it for
that account, which it found valid. -/
def Passed (w : World Desk (Recorded Desk Call Handler)) (p : Pid) (id : String) : Prop :=
  ∃ c s q a, w.procs p = some c ∧ Accepted C S c s q ∧ q.account = some a ∧ a.id = id

/-- What has become of an account since it was deactivated, in `w` at the
latest. -/
structure Since (id : String) (w v : World Desk (Recorded Desk Call Handler)) : Prop where
  closed : Closed id v.shared.tables
  passed : ∀ p, Passed C S v p id → Passed C S w p id
  log : ∃ new, v.shared.log = w.shared.log ++ new ∧
    ∀ p e time, .handler p e time ∈ new → e.About S id → Passed C S w p id
  row : (∀ p, ¬ Passed C S w p id) →
    v.shared.tables.accountByID id = w.shared.tables.accountByID id

variable {C S}
variable {id : String} {w v v' : World Desk (Recorded Desk Call Handler)}

theorem Since.start
    (hclosed : Closed id w.shared.tables) :
    Since C S id w w where
  closed := hclosed
  passed _ h := h
  log := ⟨[], by simp⟩
  row _ := rfl

/-- The others have passed as they had. -/
theorem passed_put
    {s : Desk} {p q : Pid} {c : Option (Recorded Desk Call Handler)}
    (hown : ∀ m ∈ c, ∀ s' r a, Accepted C S m s' r → r.account = some a → a.id = id →
      Passed C S v p id)
    (hq : Passed C S (v.put s p c) q id) :
    Passed C S v q id := by
  rcases hq with ⟨m, s', r, a, hm, hr, ha, hid⟩
  by_cases hqp : q = p
  · subst hqp
    rw [World.put_procs_self] at hm
    exact hown m hm s' r a hr ha hid
  · rw [World.put_procs_of_ne v s hqp] at hm
    exact ⟨m, s', r, a, hm, hr, ha, hid⟩

/-- A request whose account is found valid in this very step is not that of a
deactivated account; one that had been verified before had passed before. -/
theorem passed_step
    (hclosed : Closed id v.shared.tables)
    {p : Pid} {c : Recorded Desk Call Handler}
    (hled : (handle C S c.call).Leads c.past c.rest)
    (hc : v.procs p = some c)
    {k : Choice} {s' : Desk} {c' : Option (Recorded Desk Call Handler)}
    (hact : (calls C S).act p k v.shared c = some (s', c'))
    {m : Recorded Desk Call Handler}
    (hm : m ∈ c')
    {s : Desk} {r : VerifiedRequest κ} {a : AccountRow}
    (hr : Accepted C S m s r)
    (ha : r.account = some a)
    (hid : a.id = id) :
    Passed C S v p id := by
  rcases Machine.act_records hact with ⟨ready, emit, next, hrest, hready, rfl, rfl⟩
  rcases Option.map_eq_some_iff.mp hm with ⟨l, hl, rfl⟩
  have hread : (c.past ++ [v.shared])[1]? = some s := hr.read
  by_cases hlt : 1 < c.past.length
  · rw [List.getElem?_append_left hlt] at hread
    rcases stage hled with ⟨hearly, _⟩ | hrefusing | ⟨s₀, q, hq⟩
    · omega
    · -- Nothing is left of a handler that has refused.
      rw [hrest] at hrefusing
      rcases hrefusing with hhalt | ⟨pr, hanswer⟩
      · cases hhalt
      · cases hanswer
        simp [Script.remains] at hl
    · obtain rfl : s = s₀ := Option.some.inj (hread.symm.trans hq.read)
      obtain rfl : r = q := Call.Accepts.unique (c := c.call) hr.accepts hq.accepts
      exact ⟨c, s, r, a, hc, hq, ha, hid⟩
  · exfalso
    rw [List.getElem?_append_right (Nat.le_of_not_lt hlt)] at hread
    obtain rfl := List.mem_singleton.mp (List.mem_of_getElem? hread)
    rcases hclosed with ⟨b, hb, hdeactivated⟩
    rcases hr.accepts.found ha with ⟨hrow, hvalid⟩
    rw [hid] at hrow
    rw [Option.some.inj (hb.symm.trans hrow), hvalid] at hdeactivated
    exact absurd hdeactivated (by decide)

/-- A step of a handler. -/
theorem Since.act
    (hv : Since C S id w v)
    {p : Pid} {k : Choice} {c : Recorded Desk Call Handler} {s' : Desk}
    {c' : Option (Recorded Desk Call Handler)}
    (hled : (handle C S c.call).Leads c.past c.rest)
    (hc : v.procs p = some c)
    (hact : (calls C S).act p k v.shared c = some (s', c')) :
    Since C S id w (v.put s' p c') := by
  have hpassed : ∀ q, Passed C S (v.put s' p c') q id → Passed C S w q id := by
    intro q hq
    refine hv.passed q (passed_put ?_ hq)
    intro m hm s r a hr ha hid
    exact passed_step hv.closed hled hc hact hm hr ha hid
  rcases Machine.act_records hact with ⟨ready, emit, next, hrest, hready, rfl, rfl⟩
  have hevent : c.rest.event k v.shared = some (emit k v.shared) := by
    simp [hrest, Script.event, hready]
  have hconfined := confined hled hevent
  have habout : (emit k v.shared).About S id → Passed C S w p id := by
    intro habout
    rcases hconfined with hnobody | ⟨s, q, hq, hown⟩
    · rcases hnobody.about id habout with ⟨a, hnone, _⟩
      simp at hnone
    · rcases hown.about id habout with ⟨a, ha, hid⟩
      exact hv.passed p ⟨c, s, q, a, hc, hq, ha, hid⟩
  have hfinal : ∀ status, emit k v.shared = .statusSet id status → status = "deactivated" := by
    intro status
    rcases hconfined with hnobody | ⟨s, q, hq, hown⟩
    · exact hnobody.final id status
    · exact hown.final id status
  rcases hv.closed with ⟨a, hrow, hstatus⟩
  rcases accountByID_run (S := S) hrow (emit k v.shared) with ⟨b, hb, hsame, hmoved, _⟩
  refine ⟨⟨b, hb, ?_⟩, hpassed, ?_, ?_⟩
  · rcases hmoved with heq | hset
    · exact heq.trans hstatus
    · exact hfinal _ hset
  · rcases hv.log with ⟨new, hlog, hnew⟩
    refine ⟨new ++ [.handler p (emit k v.shared) v.shared.now], ?_, ?_⟩
    · simp [machine, hlog]
    · intro q e time hmem he
      rcases List.mem_append.mp hmem with hmem | hmem
      · exact hnew q e time hmem he
      · rw [List.mem_singleton] at hmem
        cases hmem
        exact habout he
  · intro hnone
    refine Eq.trans ?_ (hv.row hnone)
    rw [hrow, ← hsame fun he => hnone p (habout he)]
    exact hb

/-- Any step. -/
theorem Since.exec
    (hv : Since C S id w v)
    (hreach : ((calls C S).system Fresh).Reachable (allCalls C S) v)
    {x : Action Choice Call Outside}
    (hx : (calls C S).exec v x = some v') :
    Since C S id w v' := by
  cases x with
  | spawn p r =>
      rcases Program.exec_spawn hx with ⟨_, rfl⟩
      refine ⟨hv.closed, ?_, hv.log, hv.row⟩
      intro q hq
      refine hv.passed q (passed_put ?_ hq)
      intro m hm s r' a hr
      cases hm
      cases hr.read
  | act p k =>
      rcases Program.exec_act hx with ⟨c, s', c', hc, hact, rfl⟩
      exact hv.act (Machine.records_led hreach hc) hc hact
  | crash p =>
      rcases Program.exec_crash hx with ⟨c, _, rfl⟩
      refine ⟨hv.closed, ?_, hv.log, hv.row⟩
      intro q hq
      exact hv.passed q (passed_put (fun _ hm => by cases hm) hq)
  | env x =>
      rcases Program.exec_env hx with ⟨s', hs', rfl⟩
      have haccounts := accounts_env hs'
      have hfind : s'.tables.accountByID id = v.shared.tables.accountByID id := by
        simp only [Tables.accountByID, haccounts]
      refine ⟨?_, hv.passed, ?_, ?_⟩
      · rcases hv.closed with ⟨a, ha, hstatus⟩
        exact ⟨a, hfind.trans ha, hstatus⟩
      · rcases hv.log with ⟨new, hlog, hnew⟩
        change machine.env x v.shared = some s' at hs'
        simp only [machine] at hs'
        split at hs'
        · rcases Option.map_eq_some_iff.mp hs' with ⟨t, _, rfl⟩
          refine ⟨new ++ [.operator x], by simp [hlog], ?_⟩
          intro p e time hmem
          rcases List.mem_append.mp hmem with hmem | hmem
          · exact hnew p e time hmem
          · simp at hmem
        · cases hs'
      · intro hnone
        exact hfind.trans (hv.row hnone)

end Runs

/-- Once an account is deactivated it stays so in every run.  From then on its
key is replaced, its status written and its own page shown only by requests of
that account which had already found it valid at that moment; if there is none of
these, not even its row changes any more. -/
theorem deactivation_final
    {κ : Type} {C : Codec κ} {S : Server}
    {w w' : World Desk (Recorded Desk Call Handler)}
    {xs : List (Action Choice Call Outside)} {id : String}
    (hw : ((calls C S).system Fresh).Reachable (allCalls C S) w)
    (hrun : ((calls C S).system Fresh).Run (allCalls C S) w xs w')
    (hclosed : Closed id w.shared.tables) :
    Closed id w'.shared.tables ∧
    (∃ new, w'.shared.log = w.shared.log ++ new ∧
      ∀ p e time, .handler p e time ∈ new → e.About S id → Passed C S w p id) ∧
    ((∀ p, ¬ Passed C S w p id) →
      w'.shared.tables.accountByID id = w.shared.tables.accountByID id) := by
  have hend : Since C S id w w' :=
    Automaton.Run.stable (P := fun v => Since C S id w v)
      (I := fun v => ((calls C S).system Fresh).Reachable (allCalls C S) v)
      (fun v hv => hv) (fun v x v' hv _ _ hx h => h.exec hv hx) hw hrun (Since.start hclosed)
  exact ⟨hend.closed, hend.log, hend.row⟩

/-- `close` is signed for account `a` and deactivates it. -/
def closingCodec : Codec String where
  toJose :=
    { sampleCodec.toJose with
      parseSigned := fun body =>
        if body = "close" then .ok [⟨"n", some "/acme/acct/a", none, "/acme/acct/a"⟩]
        else sampleCodec.parseSigned body
      verify := fun body key =>
        if body = "close" then if key = "old" then some body else none
        else sampleCodec.verify body key }
  parseEab := sampleCodec.parseEab
  verifyEab := sampleCodec.verifyEab
  newAccount := sampleCodec.newAccount
  keyChange := sampleCodec.keyChange
  accountStatus _ := some "deactivated"

/-- The account is registered and deactivated; its page and a key change, which
had been verified before, follow. -/
theorem deactivation_final_sample :
    ∃ w w' : World Desk (Recorded Desk Call Handler),
      Closed "a" w.shared.tables ∧ Closed "a" w'.shared.tables ∧
      (w'.shared.tables.accounts.map fun a => (a.status, a.thumbprint)) =
        [("deactivated", "new1")] ∧
      ∃ new, w'.shared.log = w.shared.log ++ new ∧
        ∀ p e time, .handler p e time ∈ new → e.About sampleServer "a" →
          Passed closingCodec sampleServer w p "a" := by
  have hfollow :
      (((calls closingCodec sampleServer).system Fresh).follow
        (allCalls closingCodec sampleServer) (World.idle ⟨⟨[], []⟩, 0, []⟩)
        (sampleRegistration ++ [.act 0 ⟨true, none, ""⟩] ++ sampleChange 1 "change1" ++
          [.spawn 2 (.account "a" (some "close")), .act 2 ⟨true, some true, ""⟩,
            .act 2 ⟨true, none, ""⟩, .act 2 ⟨true, none, ""⟩])).any
        (fun w => (w.shared.tables.accountByID "a").any (fun a => a.status == "deactivated") &&
          (((calls closingCodec sampleServer).system Fresh).follow
            (allCalls closingCodec sampleServer) w
            [.act 2 ⟨true, none, ""⟩, .act 1 ⟨true, none, ""⟩, .act 1 ⟨true, none, ""⟩]).any
            fun w' => decide
              ((w'.shared.tables.accounts.map fun a => (a.status, a.thumbprint)) =
                [("deactivated", "new1")])) = true := by
    decide
  rcases Automaton.Run.exists_of_follow hfollow with ⟨w, hstart, hw⟩
  rw [Bool.and_eq_true, Option.any_eq_true] at hw
  rcases hw with ⟨⟨a, ha, hstatus⟩, hw'⟩
  rcases Automaton.Run.exists_of_follow hw' with ⟨w', hrun, hcheck⟩
  have hclosed : Closed "a" w.shared.tables := ⟨a, ha, by simpa using hstatus⟩
  have hinit : ((calls closingCodec sampleServer).system Fresh).init
      (World.idle ⟨⟨[], []⟩, 0, []⟩) := ⟨⟨rfl, rfl⟩, World.idle_quiet _⟩
  have hreach := Automaton.Reachable.of_run hinit hstart
  rcases deactivation_final hreach hrun hclosed with ⟨hclosed', hnew, _⟩
  exact ⟨w, w', hclosed, hclosed', of_decide_eq_true hcheck, hnew⟩

end Registry
end Acme
end Yca
