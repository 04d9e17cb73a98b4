import Yca.Bridge.CsrNames
import Yca.Ca.Nonces
import Yca.Ca.Succession
import Yca.Ca.Uniqueness

/-!
# Two orders for one name

The finalize handler compares names in lower case.  The CA refuses a second
certificate by the byte-exact common name it derives from the request: its own
common name as it is spelled, or else a dNSName in lower case.  Whether the
second of two requests for one identifier meets the certificate of the first
depends on nothing but these two texts.
-/

namespace Yca
namespace Bridge

open Yca.Core Ca
open Acme (Order csrProblem toLower)

/-- The text of a request for one identifier that becomes the common name. -/
def commonText (r : Csr) (identifier : String) : String :=
  match r.commonNames with
  | [] => identifier
  | v :: _ => v.2

/-- The row of an active server certificate outside its renewal window. -/
structure Unrenewable (s : Store) (cert : Cert) (row : CertRow) : Prop where
  mem : row ∈ s.db.certIndex
  fingerprint : row.fingerprint = cert
  kind : row.kind = .ee .server
  active : row.status = .active
  unexpired : s.now < row.notAfter
  early : (row.notAfter - row.notBefore) * renewWindowPct < (row.notAfter - s.now) * 100

instance (s : Store) (cert : Cert) (row : CertRow) : Decidable (Unrenewable s cert row) :=
  decidable_of_iff
    (row ∈ s.db.certIndex ∧ row.fingerprint = cert ∧ row.kind = .ee .server ∧
      row.status = .active ∧ s.now < row.notAfter ∧
      (row.notAfter - row.notBefore) * renewWindowPct < (row.notAfter - s.now) * 100)
    ⟨fun h => ⟨h.1, h.2.1, h.2.2.1, h.2.2.2.1, h.2.2.2.2.1, h.2.2.2.2.2⟩,
      fun h => ⟨h.mem, h.fingerprint, h.kind, h.active, h.unexpired, h.early⟩⟩

section Texts

variable
  {lib : Parsers} {rune : Char → Char} {r : Csr} {identifier : String} {names : Names}

/-- The common name of a certificate for one identifier. -/
theorem commonName_eq_text
    (haccept : csrProblem rune (goView r) [identifier] = none)
    (hsign : signNames lib .server r = some names) :
    names.commonName = commonText r identifier := by
  have hchecked := checked_of_csrProblem (List.nodup_singleton identifier) haccept
  have hsigned := signed_of_signNames hsign
  unfold commonText
  rcases hsigned.cn with ⟨v, hv, hcn⟩ | ⟨hnone, s, hs, _, hparse⟩
  · rw [commonNames_single hsigned.atMostOne hv]
    exact hcn
  · have hlower : names.commonName = toLower rune s := sameName_of_sanDns hparse
    rw [hnone, hlower]
    have hmem : toLower rune s ∈ [identifier] := (hchecked.names _).mpr (Or.inl ⟨s, hs, rfl⟩)
    exact List.mem_singleton.mp hmem

/-- An active certificate outside its window blocks its own common name only. -/
theorem Unrenewable.blocks_iff
    {s : Store}
    {cert : Cert}
    {row : CertRow}
    (h : Unrenewable s cert row)
    (cn : String) :
    row.blocks cn (.ee .server) s.now = true ↔ row.cn = cn := by
  simp [CertRow.blocks, h.kind, h.active, h.unexpired, h.early]

end Texts

section Runs

/-- Every row of every run is about its certificate. -/
theorem faithful_of_reachable
    {v : World Store (Request × Command)}
    (hv : (ycaCalls.system Initialised).Reachable (Rules.free.calls fun _ => True) v) :
    ∀ row ∈ v.shared.db.certIndex, row.Faithful := by
  refine calls_keep (P := fun s => ∀ row ∈ s.db.certIndex, row.Faithful)
    (fun req _ => Rules.free_admits req) (fun s hs => hs.indexed.1.faithful) ?_ hv
  intro s s' hs hmove
  refine keeps_of_calls (P := fun s => ∀ row ∈ s.db.certIndex, row.Faithful) ?_ ?_ hs hmove
  · intro s p req e hs _ hmeets _
    by_cases hcommits : ∃ tx, e = .commit tx
    · obtain ⟨tx, rfl⟩ := hcommits
      obtain ⟨db, hdb⟩ := Option.isSome_iff_exists.mp hmeets.2.1
      rw [apply_commit p hdb]
      exact faithful_run hdb hs
    · rw [apply_certIndex fun tx htx => hcommits ⟨tx, htx⟩]
      exact hs
  · intro s s' hs hdb _ _ _ _
    rw [hdb]
    exact hs

variable {v v' : World Store (Request × Command)} {p : Pid} {id nonce cn : String} {key : Key}
  {valid : Option Nat}

/-- What a signing request commits. -/
theorem signed_of_emits
    (hv : (ycaCalls.system Initialised).Reachable (Rules.free.calls fun _ => True) v)
    {tx : Tx}
    (he : machine.Emits start (Rules.free.calls fun _ => True) v p
      (.signCsr .server id nonce cn key valid) (.commit tx) v') :
    ∃ cert issuer purpose,
      tx = .issue cert issuer .server purpose (some id) ∧
      cert.subjectCn = cn ∧
      blockingDuplicate v.shared.db cn (.ee .server) v.shared.now = false := by
  obtain ⟨_, hmeets, haccount⟩ := call_emitted (fun req _ => Rules.free_admits req) hv he
  rcases haccount with hplain | ⟨tx', htx, hissue⟩
  · simp [Event.plain] at hplain
  · obtain rfl := Event.commit.inj htx
    obtain ⟨cert, issuer, purpose, then_, rfl, hsubject, _⟩ := unblocked_of_account hissue
    refine ⟨cert, issuer, purpose, rfl, hsubject, ?_⟩
    rw [← hsubject]
    exact hmeets.2.2.2.1

/-- Two requests for the one identifier of two orders, both accepted by the
finalize handler.  Once the first is signed, its certificate, as long as it is
active and outside its renewal window, stands in the way of the second exactly
if the two texts are the same; and then the second is not signed. -/
theorem second_refused_iff_same_text
    {o₁ o₂ : Order}
    {identifier : String}
    (hids₁ : o₁.identifiers = [identifier])
    (hids₂ : o₂.identifiers = [identifier])
    {lib : Parsers} {rune : Char → Char} {r₁ r₂ : Csr} {names₁ names₂ : Names}
    (haccept₁ : csrProblem rune (goView r₁) o₁.identifiers = none)
    (haccept₂ : csrProblem rune (goView r₂) o₂.identifiers = none)
    (hsign₁ : signNames lib .server r₁ = some names₁)
    (hsign₂ : signNames lib .server r₂ = some names₂)
    (hv : (ycaCalls.system Initialised).Reachable (Rules.free.calls fun _ => True) v)
    {cert issuer : Cert}
    {profile : Profile}
    {purpose : String}
    {enrolled : Option String}
    (hfirst : machine.Emits start (Rules.free.calls fun _ => True) v p
      (.signCsr .server id nonce names₁.commonName key valid)
      (.commit (.issue cert issuer profile purpose enrolled)) v')
    {u : World Store (Request × Command)}
    {as : List (Action Choice Request Outside)}
    (hrun : (ycaCalls.system Initialised).Run (Rules.free.calls fun _ => True) v' as u)
    {row : CertRow}
    (hrow : Unrenewable u.shared cert row) :
    (row.blocks names₂.commonName (.ee .server) u.shared.now = true ↔
        commonText r₁ identifier = commonText r₂ identifier) ∧
      (commonText r₁ identifier = commonText r₂ identifier →
        ∀ q id' nonce' key' valid' tx u',
          ¬ machine.Emits start (Rules.free.calls fun _ => True) u q
            (.signCsr .server id' nonce' names₂.commonName key' valid') (.commit tx) u') := by
  rw [hids₁] at haccept₁
  rw [hids₂] at haccept₂
  obtain ⟨cert', _, _, htx, hsubject, _⟩ := signed_of_emits hv hfirst
  obtain ⟨rfl, _⟩ := Tx.issue.inj htx
  obtain ⟨k, hG, hx⟩ := hfirst.step
  have hu := (hv.step hG hx).run hrun
  have hcn : row.cn = commonText r₁ identifier := by
    rw [(faithful_of_reachable hu row hrow.mem).cn, hrow.fingerprint, hsubject]
    exact commonName_eq_text haccept₁ hsign₁
  have hiff : row.blocks names₂.commonName (.ee .server) u.shared.now = true ↔
      commonText r₁ identifier = commonText r₂ identifier := by
    rw [hrow.blocks_iff, hcn, commonName_eq_text haccept₂ hsign₂]
  refine ⟨hiff, ?_⟩
  intro hsame q id' nonce' key' valid' tx u' he
  obtain ⟨_, _, _, _, _, hfree⟩ := signed_of_emits hu he
  rw [blockingDuplicate, List.any_eq_false] at hfree
  exact hfree row hrow.mem (hiff.mpr hsame)

/-- The request with a dNSName alone. -/
def sanRequest : Csr :=
  ⟨[], ["a.ca"], [], [], [], []⟩

/-- The request that spells the name in capitals in its common name. -/
def capitalRequest : Csr :=
  ⟨[(.utf8, "A.CA")], ["a.ca"], [], [], [], []⟩

/-- The request for `a.ca` is about to be signed. -/
def firstLabels : List (Action Choice Request Outside) :=
  [.spawn 1 (.enroll "c")] ++ acts 1 4 (sampleChoice 31) ++
    [.spawn 2 (.getNonce "c")] ++ acts 2 5 (nonceChoice 32 "n1") ++
    [.spawn 3 (.signCsr .server "c" "n1" "a.ca" 77 none)] ++ acts 3 11 (sampleChoice 33)

/-- The request for `A.CA` is about to be signed. -/
def secondLabels : List (Action Choice Request Outside) :=
  [.spawn 4 (.getNonce "c")] ++ acts 4 5 (nonceChoice 34 "n2") ++
    [.spawn 5 (.signCsr .server "c" "n2" "A.CA" 78 none)] ++ acts 5 11 (sampleChoice 35)

/-- Both are signed, one right after the other. -/
theorem both_signed :
    ∃ v v' u u' cert issuer profile purpose enrolled row tx,
      (ycaCalls.system Initialised).Reachable (Rules.free.calls fun _ => True) v ∧
      machine.Emits start (Rules.free.calls fun _ => True) v 3
        (.signCsr .server "c" "n1" "a.ca" 77 none)
        (.commit (.issue cert issuer profile purpose enrolled)) v' ∧
      (ycaCalls.system Initialised).Run (Rules.free.calls fun _ => True) v' secondLabels u ∧
      Unrenewable u.shared cert row ∧
      machine.Emits start (Rules.free.calls fun _ => True) u 5
        (.signCsr .server "c" "n2" "A.CA" 78 none) (.commit tx) u' := by
  have h :
      ((ycaCalls.system Initialised).follow (Rules.free.calls fun _ => True)
        (World.idle sampleStore) firstLabels).any
        (fun v =>
          (v.procs 3).map Prod.fst == some (.signCsr .server "c" "n1" "a.ca" 77 none) &&
            decide (Rules.free.calls (fun _ => True) v (.act 3 (sampleChoice 33))) &&
            ((v.procs 3).bind fun c => c.2.event (sampleChoice 33) v.shared).any (fun e =>
              e.newLeaf.any fun cert =>
                ((ycaCalls.system Initialised).exec v (.act 3 (sampleChoice 33))).any fun v' =>
                  ((ycaCalls.system Initialised).follow (Rules.free.calls fun _ => True) v'
                    secondLabels).any fun u =>
                      (u.procs 5).map Prod.fst ==
                          some (.signCsr .server "c" "n2" "A.CA" 78 none) &&
                        decide (∃ row ∈ u.shared.db.certIndex, Unrenewable u.shared cert row) &&
                        decide (Rules.free.calls (fun _ => True) u (.act 5 (sampleChoice 35))) &&
                        ((u.procs 5).bind fun c => c.2.event (sampleChoice 35) u.shared).any
                          Event.commits &&
                        ((ycaCalls.system Initialised).exec u
                          (.act 5 (sampleChoice 35))).isSome)) = true := by
    decide
  obtain ⟨v, hrun, hcheck⟩ := Automaton.Run.exists_of_follow h
  simp only [Bool.and_eq_true, beq_iff_eq, decide_eq_true_eq, Option.any_eq_true,
    Option.isSome_iff_exists] at hcheck
  obtain ⟨⟨hreq, hG⟩, e, hevent, cert, hleaf, v', hx, u, hfollow,
    ⟨⟨⟨hreq', row, _, hrow⟩, hG'⟩, e', hevent', hcommit⟩, u', hx'⟩ := hcheck
  obtain ⟨issuer, profile, purpose, enrolled, rfl⟩ := Event.eq_of_newLeaf hleaf
  obtain ⟨tx, rfl⟩ := Event.eq_of_commits hcommit
  exact ⟨v, v', u, u', _, _, _, _, _, row, _, Automaton.Reachable.of_run
    (M := ycaCalls.system Initialised) ⟨sampleStore_initialised, World.idle_quiet _⟩ hrun,
    Machine.Emits.of_event hreq hevent hG hx, Automaton.Run.of_follow hfollow, hrow,
    Machine.Emits.of_event hreq' hevent' hG' hx'⟩

/-- A second request of the same form is refused. -/
theorem second_refused_iff_same_text_sample :
    ∃ (u : World Store (Request × Command)) (row : CertRow),
      row.blocks "a.ca" (.ee .server) u.shared.now = true ∧
        ∀ q id key valid tx u',
          ¬ machine.Emits start (Rules.free.calls fun _ => True) u q
            (.signCsr .server id "n2" "a.ca" key valid) (.commit tx) u' := by
  obtain ⟨v, v', u, _, _, _, _, _, _, row, _, hv, hfirst, hrun, hrow, _⟩ := both_signed
  obtain ⟨_, _, o, _, hids⟩ := sampleOrder_reached
  have haccept : csrProblem id (goView sanRequest) o.identifiers = none := by
    rw [hids]
    decide
  have hsign : signNames plainParsers .server sanRequest =
      some ⟨"a.ca", ["a.ca"], [], [], []⟩ := by
    decide
  obtain ⟨hblocks, hrefused⟩ := second_refused_iff_same_text hids hids haccept haccept hsign hsign
    hv hfirst hrun hrow
  refine ⟨u, row, hblocks.mpr rfl, ?_⟩
  intro q id key valid tx u'
  exact hrefused rfl q id "n2" key valid tx u'

/-- The same name in capitals is signed a second time. -/
theorem second_not_refused :
    ¬ ∀ (w : World Acme.State Acme.Handler) (o₁ o₂ : Order) identifier rune r₁ r₂ names₁
        names₂ v v' u u' as p q id id' nonce nonce' key key' valid valid' cert issuer profile purpose
        enrolled row tx,
      Acme.server.Reachable (Acme.Presents true) w →
      o₁ ∈ w.shared.db.orders → o₂ ∈ w.shared.db.orders →
      o₁.identifiers = [identifier] → o₂.identifiers = [identifier] →
      csrProblem rune (goView r₁) o₁.identifiers = none →
      csrProblem rune (goView r₂) o₂.identifiers = none →
      signNames plainParsers .server r₁ = some names₁ →
      signNames plainParsers .server r₂ = some names₂ →
      (ycaCalls.system Initialised).Reachable (Rules.free.calls fun _ => True) v →
      machine.Emits start (Rules.free.calls fun _ => True) v p
        (.signCsr .server id nonce names₁.commonName key valid)
        (.commit (.issue cert issuer profile purpose enrolled)) v' →
      (ycaCalls.system Initialised).Run (Rules.free.calls fun _ => True) v' as u →
      Unrenewable u.shared cert row →
      ¬ machine.Emits start (Rules.free.calls fun _ => True) u q
        (.signCsr .server id' nonce' names₂.commonName key' valid') (.commit tx) u' := by
  intro hall
  obtain ⟨v, v', u, u', cert, issuer, profile, purpose, enrolled, row, tx, hv, hfirst, hrun, hrow,
    hsecond⟩ := both_signed
  obtain ⟨w, hw, o, ho, hids⟩ := sampleOrder_reached
  refine hall w o o "a.ca" id sanRequest capitalRequest ⟨"a.ca", ["a.ca"], [], [], []⟩
    ⟨"A.CA", ["a.ca"], [], [], []⟩ v v' u u' secondLabels 3 5 "c" "c" "n1" "n2" 77 78 none
    none cert issuer profile purpose enrolled row tx hw ho ho hids hids ?_ ?_ (by decide) (by decide)
    hv hfirst hrun hrow hsecond
  · rw [hids]
    decide
  · rw [hids]
    decide

end Runs

end Bridge
end Yca
