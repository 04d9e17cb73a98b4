import Yca.Ca.Safety
import Yca.Ca.Index
import Mathlib.Tactic.Ring

/-!
# The window the frontend suggests and the window the CA accepts

`handleRenewalInfo` (`acme/ari.go`) tells a client when to replace a
certificate; the duplicate check of the CA decides whether it may.  The frontend
works in nanoseconds and prints whole seconds, the CA works in whole seconds,
and the frontend overrides its window when a certificate is to be replaced at
once.  The frontend runs here beside the whole CA, in any interleaving, and the
two windows are compared for every certificate of its database.
-/

namespace Yca
namespace Bridge

open Yca.Core Ca

section Frontend

/-- `time.Second`, in nanoseconds. -/
def second : Int := 1000000000

/-- `renewPct`. -/
def renewPct : Int := 33

/-- `closePct`. -/
def closePct : Int := 10

/-- `revokedWindow`: one hour. -/
def revokedWindow : Int := 3600 * second

/-- The instant `t.Format(time.RFC3339)` names: whole seconds, the fraction is
dropped. -/
def rfc3339 (t : Int) : Int := t / second

/-- `strings.ToUpper(SerialNumber.Text(16))`: no leading zeros. -/
def serialText (serial : List UInt8) : String :=
  normalizeSerial (hexEncode serial)

/-- The columns of the frontend's `certs` that renewal information and revocation
use; `leaf` is the first certificate of `chain_pem`. -/
structure CertEntry where
  leaf : Cert
  serial : String
  ariId : String
  notBefore : Nat
  notAfter : Nat
  revoked : Nat
  deriving DecidableEq

/-- The row `InsertCert` writes after `certMeta`. -/
def certEntry (leaf : Cert) (ariId : String) : CertEntry :=
  ⟨leaf, serialText leaf.serial, ariId, leaf.notBefore, leaf.notAfter, 0⟩

/-- The CA with its processes, and the frontend's tables `certs` and
`ari_accel`. -/
structure Site where
  ca : World Store Command
  certs : List CertEntry
  accel : List (String × Nat)

/-- A window of whole seconds. -/
structure Window where
  start : Int
  finish : Int
  deriving DecidableEq

/-- `CertByARI`. -/
def Site.certByAri (s : Site) (id : String) : Option CertEntry :=
  s.certs.find? fun c => c.ariId == id

/-- `AccelWindow`. -/
def Site.accelWindow (s : Site) (issuerCn : String) : Option Int :=
  (s.accel.lookup issuerCn).map fun (secs : Nat) => (secs : Int) * second

/-- `replaceNow`. -/
def Site.replaceNow (s : Site) (cert : CertEntry) : Option Int :=
  if cert.revoked ≠ 0 then some revokedWindow else s.accelWindow cert.leaf.issuerCn

/-- The `suggestedWindow` of `handleRenewalInfo`.  Durations are unbounded here:
lifetimes are at most 825 days, a hundredth of what their product with 33 may
be in 64 bits. -/
def Site.suggestedWindow (s : Site) (cert : CertEntry) (now : Int) : Window :=
  match s.replaceNow cert with
  | some window => ⟨rfc3339 now, rfc3339 (now + window)⟩
  | none =>
      let life := (cert.notAfter - cert.notBefore : Int) * second
      ⟨rfc3339 (cert.notAfter * second + (-life * renewPct).tdiv 100),
        rfc3339 (cert.notAfter * second + (-life * closePct).tdiv 100)⟩

/-- `handleRenewalInfo`; an unknown certificate has no window. -/
def Site.renewalInfo (s : Site) (id : String) (now : Int) : Option Window :=
  match s.certByAri id with
  | none => none
  | some cert => if cert.ariId = "" then none else some (s.suggestedWindow cert now)

end Frontend

section System

/-- What happens at a site. -/
inductive SiteStep
  /-- A step of the CA. -/
  | ca (a : Action Choice Request Outside)
  /-- The frontend stores a certificate the CA issued. -/
  | store (leaf : Cert) (ariId : String)
  /-- `MarkCertRevoked`, after the CA revoked that serial. -/
  | note (serial : String) (now : Nat)
  | accelerate (issuerCn : String) (secs : Nat)
  | clear (issuerCn : String)

/-- The CA has revoked a certificate with this serial. -/
def revokedSerial (log : List Event) (serial : String) : Bool :=
  log.any fun e =>
    match e with
    | .commit (.revoke fp _ _) => serialText fp.serial == serial
    | _ => false

/-- One step. -/
def Site.exec (s : Site) : SiteStep → Option Site
  | .ca a => (yca.exec s.ca a).map fun w => { s with ca := w }
  | .store leaf ariId =>
      if s.ca.shared.db.certIndex.any fun row => row.isLeaf && row.fingerprint == leaf then
        some { s with certs := s.certs ++ [certEntry leaf ariId] }
      else none
  | .note serial now =>
      if revokedSerial s.ca.shared.log serial then
        some { s with
          certs := updateWhere (fun c => c.serial == serial) (fun c => { c with revoked := now })
            s.certs }
      else none
  | .accelerate issuerCn secs =>
      some { s with accel := (issuerCn, secs) :: s.accel.filter fun a => a.1 != issuerCn }
  | .clear issuerCn => some { s with accel := s.accel.filter fun a => a.1 != issuerCn }

/-- The site, from an initialised store and an empty frontend. -/
def site : Automaton Site SiteStep where
  init s := (yca.system Initialised).init s.ca ∧ s.certs = [] ∧ s.accel = []
  exec := Site.exec

/-- Serials as Botan draws them for leaves: the first byte lies between 0x40 and
0x7f. -/
def drawnSerial (serial : List UInt8) : Bool :=
  match serial with
  | [] => false
  | b :: _ => decide (0x40 ≤ b.toNat ∧ b.toNat ≤ 0x7f)

/-- Every new certificate gets a serial of its own, drawn as Botan draws it. -/
def Rules.drawn : Rules where
  issuance := True
  ceremonies := True
  caRevocation := True
  keep _ _ := False
  keep_mono _ _ _ _ h := h
  only s e :=
    match e with
    | .commit (.issue cert issuer profile purpose id) =>
        (Tx.issue cert issuer profile purpose id).Fresh s.db ∧ drawnSerial cert.serial = true
    | .commit tx => tx.Fresh s.db
    | _ => True

instance : Decidable Rules.drawn.ceremonies :=
  inferInstanceAs (Decidable True)

instance (db : Db) (slug : String) : Decidable (Rules.drawn.keep db slug) :=
  inferInstanceAs (Decidable False)

instance (s : Store) (e : Event) : Decidable (Rules.drawn.only s e) := by
  unfold Rules.drawn
  dsimp only
  split <;> infer_instance

theorem Rules.drawn_admits (req : Request) :
    Rules.drawn.Admits req := by
  cases req <;> trivial

/-- Any interleaving of everything, serials drawn as Botan draws them. -/
def drawn : Guard Site SiteStep
  | s, .ca a => Rules.drawn.runs (fun _ => True) s.ca a
  | _, _ => True

instance (s : Site) (x : SiteStep) : Decidable (drawn s x) :=
  match x with
  | .ca a => inferInstanceAs (Decidable (Rules.drawn.runs (fun _ => True) s.ca a))
  | .store .. => inferInstanceAs (Decidable True)
  | .note .. => inferInstanceAs (Decidable True)
  | .accelerate .. => inferInstanceAs (Decidable True)
  | .clear .. => inferInstanceAs (Decidable True)

end System

section Leaves

/-- What holds of the leaves on record: their lifetime is not negative, their
serial is spelled as the frontend spells it, and what the CA revoked stays
revoked. -/
structure Leaves (s : Store) : Prop where
  indexed : Indexed s.db
  lifetime : ∀ row ∈ s.db.certIndex, row.isLeaf = true → row.notBefore ≤ row.notAfter
  spelled : ∀ row ∈ s.db.certIndex, row.isLeaf = true → normalizeSerial row.serial = row.serial
  revoked : ∀ fp reason at_, Event.commit (.revoke fp reason at_) ∈ s.log →
    ∃ row ∈ s.db.certIndex, row.isLeaf = true ∧ row.fingerprint = fp ∧ row.status = .revoked

theorem isLeaf_congr
    {row row' : CertRow}
    (h : row'.kind = row.kind) :
    row'.isLeaf = row.isLeaf := by
  simp [CertRow.isLeaf, h]

theorem spelled_of_drawn
    {serial : List UInt8}
    (h : drawnSerial serial = true) :
    normalizeSerial (hexEncode serial) = hexEncode serial := by
  cases serial with
  | nil => simp [drawnSerial] at h
  | cons b bs =>
      simp only [drawnSerial, decide_eq_true_eq] at h
      exact normalizeSerial_hexEncode (by omega)

/-- A step that leaves the index alone and revokes nothing. -/
theorem Leaves.frame
    {s s' : Store}
    (h : Leaves s)
    (hindex : s'.db.certIndex = s.db.certIndex)
    (hlog : ∀ fp reason at_, Event.commit (.revoke fp reason at_) ∈ s'.log →
      Event.commit (.revoke fp reason at_) ∈ s.log) :
    Leaves s' := by
  refine ⟨h.indexed.congr hindex, ?_, ?_, ?_⟩
  · rw [hindex]
    exact h.lifetime
  · rw [hindex]
    exact h.spelled
  · rw [hindex]
    intro fp reason at_ hmem
    exact h.revoked fp reason at_ (hlog fp reason at_ hmem)

theorem Leaves.commit
    {p : Pid}
    {s : Store}
    {tx : Tx}
    (h : Leaves s)
    (hfresh : tx.Fresh s.db)
    (hdrawn : ∀ cert issuer profile purpose id, tx = .issue cert issuer profile purpose id →
      drawnSerial cert.serial = true)
    (hmeets : Meets Rules.drawn p s (.commit tx)) :
    Leaves (s.apply p (.commit tx)) := by
  obtain ⟨_, hrun, htx⟩ := hmeets
  obtain ⟨db, hdb⟩ := Option.isSome_iff_exists.mp hrun
  rw [apply_commit p hdb]
  refine ⟨h.indexed.run hdb hfresh, ?_, ?_, ?_⟩
  · intro row hrow hleaf
    rcases row_of_index hdb hrow with
      ⟨row₀, hrow₀, _, hkind, _, hnb, hna⟩ | ⟨cert, _, _, _, _, rfl, rfl⟩ |
        ⟨next, cert, _, _, rfl, rfl⟩
    · rw [isLeaf_congr hkind] at hleaf
      rw [hnb, hna]
      exact h.lifetime row₀ hrow₀ hleaf
    · obtain ⟨_, _, _, hlifetime, _⟩ := htx
      exact hlifetime
    · simp [CertRow.isLeaf, indexRow] at hleaf
  · intro row hrow hleaf
    rcases row_of_index hdb hrow with
      ⟨row₀, hrow₀, _, hkind, hserial, _, _⟩ | ⟨cert, issuer, profile, purpose, id, heq, rfl⟩ |
        ⟨next, cert, _, _, rfl, rfl⟩
    · rw [isLeaf_congr hkind] at hleaf
      rw [hserial]
      exact h.spelled row₀ hrow₀ hleaf
    · exact spelled_of_drawn (hdrawn cert issuer profile purpose id heq)
    · simp [CertRow.isLeaf, indexRow] at hleaf
  · intro fp reason at_ hmem
    rcases List.mem_cons.mp hmem with heq | hold
    · -- The transaction itself: its row was there, and is the one it marks.
      have heq := Event.commit.inj heq
      subst heq
      obtain ⟨⟨row, hrow, hleaf, hfp⟩, _⟩ := htx
      rw [run_certIndex hdb]
      exact ⟨_, mem_updateWhere.mpr ⟨row, hrow, Or.inl ⟨by simpa using hfp, rfl⟩⟩, hleaf, hfp,
        rfl⟩
    · obtain ⟨row, hrow, hleaf, hfp, hstatus⟩ := h.revoked fp reason at_ hold
      obtain ⟨row', hrow', hfp', hkind', hstatus'⟩ := h.indexed.row_of_run hdb hfresh hrow
      refine ⟨row', hrow', (isLeaf_congr hkind').trans hleaf, hfp'.trans hfp, ?_⟩
      rcases hstatus' with hsame | hrevoked
      · exact hsame.trans hstatus
      · exact hrevoked

theorem Leaves.event
    {p : Pid}
    {s : Store}
    {e : Event}
    (h : Leaves s)
    (hallow : Rules.drawn.allow p s e)
    (hmeets : Meets Rules.drawn p s e) :
    Leaves (s.apply p e) := by
  have hlog : (∀ tx, e ≠ .commit tx) → ∀ fp reason at_,
      Event.commit (.revoke fp reason at_) ∈ (s.apply p e).log →
        Event.commit (.revoke fp reason at_) ∈ s.log := by
    intro hne fp reason at_ hmem
    rcases mem_log_apply hmem with hold | heq
    · exact hold
    · exact absurd heq.symm (hne _)
  cases e with
  | commit tx =>
      cases tx with
      | issue cert issuer profile purpose id =>
          refine h.commit hallow.1 ?_ hmeets
          intro cert' issuer' profile' purpose' id' heq
          rw [← (Tx.issue.inj heq).1]
          exact hallow.2
      | generation next cert key lock => exact h.commit hallow (by simp) hmeets
      | _ => exact h.commit trivial (by simp) hmeets
  | _ => exact h.frame (apply_certIndex (by simp)) (hlog (by simp))

theorem leaves_of_initialised
    {s : Store}
    (h : Initialised s) :
    Leaves s := by
  obtain ⟨hindexed, hnoLeaf⟩ := h.indexed
  obtain ⟨config, rootCert, rootKey, minted, hs⟩ := h.ceremony
  refine ⟨hindexed, ?_, ?_, ?_⟩
  · intro row hrow hleaf
    rw [hnoLeaf row hrow] at hleaf
    simp at hleaf
  · intro row hrow hleaf
    rw [hnoLeaf row hrow] at hleaf
    simp at hleaf
  · intro fp reason at_ hmem
    rcases hs.log _ hmem with ⟨use, heq, _⟩ | ⟨slug, issuer, file, heq, _⟩
    · simp at heq
    · simp at heq

/-- One step of the CA keeps what holds of the leaves. -/
theorem leaves_of_moves
    {s s' : Store}
    (h : Leaves s)
    (hmove : (discipline Rules.drawn).Moves machine s s') :
    Leaves s' := by
  refine keeps_of_events ?_ ?_ h hmove
  · intro s p e hs hallow hmeets
    exact hs.event hallow hmeets
  · intro s s' hs hdb _ _ hlog _
    refine hs.frame (congrArg Db.certIndex hdb) ?_
    rw [hlog]
    exact fun _ _ _ hmem => hmem

theorem leaves_of_reachable
    {w : World Store Command}
    (hw : (yca.system Initialised).Reachable (Rules.drawn.runs fun _ => True) w) :
    Leaves w.shared :=
  holds_of_reachable (fun req _ => Rules.drawn_admits req) (fun _ hs => leaves_of_initialised hs)
    (fun _ _ hs hmove => leaves_of_moves hs hmove) hw

/-- A step of the CA keeps every row, and every revoked row revoked. -/
theorem row_of_moves
    {s s' : Store}
    (h : Leaves s)
    (hmove : (discipline Rules.drawn).Moves machine s s')
    {row : CertRow}
    (hrow : row ∈ s.db.certIndex) :
    ∃ row' ∈ s'.db.certIndex,
      row'.fingerprint = row.fingerprint ∧
      row'.kind = row.kind ∧
      (row'.status = row.status ∨ row'.status = .revoked) := by
  have hsame : s'.db.certIndex = s.db.certIndex → ∃ row' ∈ s'.db.certIndex,
      row'.fingerprint = row.fingerprint ∧ row'.kind = row.kind ∧
        (row'.status = row.status ∨ row'.status = .revoked) := by
    intro hindex
    rw [hindex]
    exact ⟨row, hrow, rfl, rfl, Or.inl rfl⟩
  cases hmove with
  | spawn => exact hsame rfl
  | die p =>
      refine hsame ?_
      show (s.die p).db.certIndex = s.db.certIndex
      unfold Store.die
      split <;> rfl
  | env o ho =>
      refine hsame ?_
      cases o <;> rw [← Option.some.inj ho]
  | event p e hallow hmeets =>
      cases e with
      | commit tx =>
          obtain ⟨_, hrun, _⟩ := hmeets
          obtain ⟨db, hdb⟩ := Option.isSome_iff_exists.mp hrun
          have hfresh : tx.Fresh s.db := by
            cases tx with
            | issue cert issuer profile purpose id => exact hallow.1
            | generation next cert key lock => exact hallow
            | _ => trivial
          show ∃ row' ∈ (s.apply p (.commit tx)).db.certIndex, _
          rw [apply_commit p hdb]
          exact h.indexed.row_of_run hdb hfresh hrow
      | _ => exact hsame (apply_certIndex (by simp))

end Leaves

section Agreement

/-- The frontend's entries are about leaves on record, and one it notes as revoked
is revoked there. -/
structure Agreed (s : Site) : Prop where
  ca : (yca.system Initialised).Reachable (Rules.drawn.runs fun _ => True) s.ca
  entries : ∀ c ∈ s.certs,
    c.serial = serialText c.leaf.serial ∧
    c.notBefore = c.leaf.notBefore ∧
    c.notAfter = c.leaf.notAfter ∧
    ∃ row ∈ s.ca.shared.db.certIndex,
      row.isLeaf = true ∧ row.fingerprint = c.leaf ∧ (c.revoked ≠ 0 → row.status = .revoked)

/-- A serial as the frontend spells it names one leaf. -/
theorem leaf_of_serialText
    {s : Store}
    (h : Leaves s)
    {row row' : CertRow}
    (hrow : row ∈ s.db.certIndex)
    (hleaf : row.isLeaf = true)
    (hrow' : row' ∈ s.db.certIndex)
    (hleaf' : row'.isLeaf = true)
    (hserial : serialText row.fingerprint.serial = serialText row'.fingerprint.serial) :
    row = row' := by
  refine h.indexed.eq hrow hrow' ?_
  unfold serialText at hserial
  rw [← (h.indexed.faithful row hrow).serial, ← (h.indexed.faithful row' hrow').serial,
    h.spelled row hrow hleaf, h.spelled row' hrow' hleaf'] at hserial
  exact hserial

/-- Every step keeps the agreement. -/
theorem Agreed.step
    {s s' : Site}
    {x : SiteStep}
    (h : Agreed s)
    (hG : drawn s x)
    (hx : s.exec x = some s') :
    Agreed s' := by
  have hleaves := leaves_of_reachable h.ca
  cases x with
  | ca a =>
      obtain ⟨w, hw, rfl⟩ := Option.map_eq_some_iff.mp hx
      refine ⟨h.ca.step hG hw, ?_⟩
      intro c hc
      obtain ⟨hserial, hnb, hna, row, hrow, hleaf, hfp, hnoted⟩ := h.entries c hc
      have hmove := moves_of_exec (fun req _ => Rules.drawn_admits req) h.ca hG hw
      obtain ⟨row', hrow', hfp', hkind', hstatus'⟩ := row_of_moves hleaves hmove hrow
      refine ⟨hserial, hnb, hna, row', hrow', (isLeaf_congr hkind').trans hleaf, hfp'.trans hfp,
        ?_⟩
      intro hrevoked
      rcases hstatus' with hsame | hstatus
      · exact hsame.trans (hnoted hrevoked)
      · exact hstatus
  | store leaf ariId =>
      simp only [Site.exec] at hx
      split at hx
      · rename_i hissued
        rw [← Option.some.inj hx]
        refine ⟨h.ca, ?_⟩
        intro c hc
        rcases List.mem_append.mp hc with hold | hnew
        · exact h.entries c hold
        · rw [List.mem_singleton.mp hnew]
          simp only [List.any_eq_true, Bool.and_eq_true, beq_iff_eq] at hissued
          obtain ⟨row, hrow, hleaf, hfp⟩ := hissued
          exact ⟨rfl, rfl, rfl, row, hrow, hleaf, hfp, by simp [certEntry]⟩
      · simp at hx
  | note serial now =>
      simp only [Site.exec] at hx
      split at hx
      · rename_i hrevoked
        rw [← Option.some.inj hx]
        refine ⟨h.ca, ?_⟩
        intro c hc
        obtain ⟨c₀, hc₀, ⟨hserial, rfl⟩ | ⟨_, rfl⟩⟩ := mem_updateWhere.mp hc
        · -- The CA revoked a leaf with this serial, and that is this leaf.
          obtain ⟨hspelled, hnb, hna, row, hrow, hleaf, hfp, _⟩ := h.entries c₀ hc₀
          refine ⟨hspelled, hnb, hna, row, hrow, hleaf, hfp, fun _ => ?_⟩
          simp only [revokedSerial, List.any_eq_true] at hrevoked
          obtain ⟨e, he, hcheck⟩ := hrevoked
          split at hcheck
          · rename_i fp reason at_
            obtain ⟨row', hrow', hleaf', hfp', hstatus'⟩ := hleaves.revoked fp reason at_ he
            have hsame : row = row' := by
              refine leaf_of_serialText hleaves hrow hleaf hrow' hleaf' ?_
              have htext : serialText fp.serial = serial := by simpa using hcheck
              have hc₀serial : c₀.serial = serial := by simpa using hserial
              rw [hfp, hfp', htext, ← hspelled, hc₀serial]
            rw [hsame]
            exact hstatus'
          · simp at hcheck
        · exact h.entries c hc₀
      · simp at hx
  | accelerate issuerCn secs =>
      rw [← Option.some.inj hx]
      exact ⟨h.ca, h.entries⟩
  | clear issuerCn =>
      rw [← Option.some.inj hx]
      exact ⟨h.ca, h.entries⟩

theorem agreed_of_reachable
    {s : Site}
    (hs : site.Reachable drawn s) :
    Agreed s := by
  refine Automaton.Reachable.invariant ?_ ?_ hs
  · intro s hinit
    refine ⟨Automaton.Reachable.of_init hinit.1, ?_⟩
    rw [hinit.2.1]
    simp
  · intro s x s' h hG hx
    exact h.step hG hx

end Agreement

section Windows

/-- No whole second of the window is one at which the row blocks a successor. -/
def Window.Accepted (w : Window) (row : CertRow) : Prop :=
  ∀ t : Nat, w.start ≤ t → t ≤ w.finish → row.blocks row.cn row.kind t = false

/-- The certificate is revoked; or its lifetime is a multiple of a hundred seconds
and its issuer is not accelerated; or it is and the certificate is already in
the CA's renewal window. -/
def Site.opensInTime (s : Site) (row : CertRow) (now : Int) : Prop :=
  row.status = .revoked ∨
    match s.accelWindow row.fingerprint.issuerCn with
    | none => 100 ∣ row.notAfter - row.notBefore
    | some _ =>
        row.notAfter ≤ (rfc3339 now).toNat ∨
          (row.notAfter - (rfc3339 now).toNat) * 100 ≤
            (row.notAfter - row.notBefore) * renewWindowPct

theorem blocks_self_iff {row : CertRow} {t : Nat} :
    row.blocks row.cn row.kind t = true ↔
      row.status = .active ∧
      t < row.notAfter ∧
      (row.notAfter - row.notBefore) * renewWindowPct < (row.notAfter - t) * 100 := by
  simp [CertRow.blocks, and_assoc]

/-- A row that does not block at the start of a window does not block later. -/
theorem accepted_iff_start
    {w : Window}
    {row : CertRow}
    (hstart : 0 ≤ w.start)
    (hle : w.start ≤ w.finish) :
    w.Accepted row ↔ row.blocks row.cn row.kind w.start.toNat = false := by
  constructor
  · intro h
    exact h w.start.toNat (by omega) (by omega)
  · intro h t ht _
    by_contra hblocks
    have hlater : row.blocks row.cn row.kind t = true := by simpa using hblocks
    have hfirst := CertRow.blocks_mono (by omega : w.start.toNat ≤ t) hlater
    rw [h] at hfirst
    simp at hfirst

/-- Whole seconds make the percentage of a lifetime exact in nanoseconds. -/
theorem percent_exact (life pct : Int) :
    (-(life * second) * pct).tdiv 100 = -(life * pct * 10000000) := by
  have hscaled : -(life * second) * pct = -(life * pct * 10000000) * 100 := by
    unfold second
    ring
  rw [hscaled, Int.mul_tdiv_cancel _ (by decide)]

/-- The ordinary window: it opens at the first whole second before the exact
moment. -/
theorem ordinary_window
    {nb na : Nat}
    (h : nb ≤ na) :
    0 ≤ rfc3339 (na * second + (-((na - nb : Int) * second) * renewPct).tdiv 100) ∧
      rfc3339 (na * second + (-((na - nb : Int) * second) * renewPct).tdiv 100) ≤
        rfc3339 (na * second + (-((na - nb : Int) * second) * closePct).tdiv 100) ∧
      (rfc3339 (na * second + (-((na - nb : Int) * second) * renewPct).tdiv 100)).toNat =
        na - ((na - nb) * renewWindowPct + 99) / 100 := by
  rw [percent_exact, percent_exact]
  unfold rfc3339 second renewPct closePct renewWindowPct
  omega

/-- At the first second of the ordinary window a third of the lifetime is left, or
up to a second more. -/
theorem first_second_iff
    {life na : Nat}
    (h : life ≤ na) :
    (na ≤ na - (life * renewWindowPct + 99) / 100 ∨
        (na - (na - (life * renewWindowPct + 99) / 100)) * 100 ≤ life * renewWindowPct) ↔
      100 ∣ life := by
  unfold renewWindowPct
  have hle : (life * 33 + 99) / 100 ≤ na := by omega
  have hback : na - (na - (life * 33 + 99) / 100) = (life * 33 + 99) / 100 := by omega
  rw [hback]
  constructor
  · rintro (hzero | hexact)
    · have hnone : (life * 33 + 99) / 100 = 0 := by omega
      have hlife : life = 0 := by omega
      rw [hlife]
      exact Nat.dvd_zero 100
    · have heq : 33 * life = 100 * ((life * 33 + 99) / 100) := by omega
      have hdvd : 100 ∣ 33 * life := ⟨_, heq⟩
      exact Nat.Coprime.dvd_of_dvd_mul_left (by decide) hdvd
  · rintro ⟨k, rfl⟩
    right
    omega

/-- For every certificate of the frontend's database, every moment and every reason
for the window: all of the window `handleRenewalInfo` returns lies in the window
the CA accepts, exactly when it opens in time. -/
theorem suggested_window_accepted_iff
    {s : Site}
    (hs : site.Reachable drawn s)
    {id : String}
    {cert : CertEntry}
    (hcert : s.certByAri id = some cert)
    {row : CertRow}
    (hrow : row ∈ s.ca.shared.db.certIndex)
    (hfp : row.fingerprint = cert.leaf)
    {now : Int}
    (hnow : 0 ≤ now)
    {w : Window}
    (hw : s.renewalInfo id now = some w) :
    w.Accepted row ↔ s.opensInTime row now := by
  have hagreed := agreed_of_reachable hs
  have hleaves := leaves_of_reachable hagreed.ca
  obtain ⟨_, hnb, hna, row', hrow', hleaf, hfp', hnoted⟩ :=
    hagreed.entries cert (List.mem_of_find?_eq_some hcert)
  have hsame : row' = row := hleaves.indexed.distinct.eq hrow' hrow (by rw [hfp', hfp])
  subst hsame
  have hlifetime := hleaves.lifetime row' hrow hleaf
  have hfaithful := hleaves.indexed.faithful row' hrow
  rw [← hfp, ← hfaithful.notBefore] at hnb
  rw [← hfp, ← hfaithful.notAfter] at hna
  have hwindow : w = s.suggestedWindow cert now := by
    simp only [Site.renewalInfo, hcert] at hw
    split at hw
    · simp at hw
    · exact (Option.some.inj hw).symm
  have hrevokedRow : row'.status = .revoked → w.Accepted row' := by
    intro hstatus t _ _
    simp [CertRow.blocks, hstatus]
  have hactive : row'.status ≠ .revoked → row'.status = .active := by
    intro hstatus
    cases hcase : row'.status with
    | active => rfl
    | revoked => exact absurd hcase hstatus
  unfold Site.opensInTime
  by_cases hstatus : row'.status = .revoked
  · exact ⟨fun _ => Or.inl hstatus, fun _ => hrevokedRow hstatus⟩
  · have hunrevoked : cert.revoked = 0 := by
      by_contra hne
      exact hstatus (hnoted hne)
    simp only [hstatus, false_or]
    have hblocks : ∀ t, row'.blocks row'.cn row'.kind t = false ↔
        row'.notAfter ≤ t ∨
          (row'.notAfter - t) * 100 ≤ (row'.notAfter - row'.notBefore) * renewWindowPct := by
      intro t
      rw [← Bool.not_eq_true, blocks_self_iff]
      have hact := hactive hstatus
      simp only [hact, true_and, not_and, not_lt]
      constructor
      · intro h
        by_cases ht : t < row'.notAfter
        · exact Or.inr (h ht)
        · exact Or.inl (by omega)
      · intro h ht
        rcases h with h | h
        · omega
        · exact h
    cases haccel : s.accelWindow row'.fingerprint.issuerCn with
    | some window =>
        -- Already open at the moment of the request.
        obtain ⟨secs, _, rfl⟩ := Option.map_eq_some_iff.mp haccel
        have hreplace : s.replaceNow cert = some (secs * second) := by
          simp [Site.replaceNow, hunrevoked, ← hfp, haccel]
        simp only [Site.suggestedWindow, hreplace] at hwindow
        subst hwindow
        rw [accepted_iff_start]
        · exact hblocks _
        · show 0 ≤ rfc3339 now
          unfold rfc3339 second
          omega
        · show rfc3339 now ≤ rfc3339 (now + secs * second)
          unfold rfc3339 second
          omega
    | none =>
        have hreplace : s.replaceNow cert = none := by
          simp [Site.replaceNow, hunrevoked, ← hfp, haccel]
        simp only [Site.suggestedWindow, hreplace, hnb, hna] at hwindow
        obtain ⟨hstart, hle, htoNat⟩ := ordinary_window hlifetime
        subst hwindow
        rw [accepted_iff_start hstart hle, hblocks]
        simp only [htoNat]
        have hlow : row'.notAfter - row'.notBefore ≤ row'.notAfter := Nat.sub_le _ _
        exact first_second_iff hlow

/-- The frontend enrolls, gets a nonce, has a request signed and stores what it
gets. -/
def orderOf (valid : Option Nat) (leaf : Cert) : List SiteStep :=
  let steps : List (Action Choice Request Outside) :=
    [.spawn 1 (.enroll "acme")] ++ acts 1 4 ⟨true, [], 0, ""⟩ ++
      [.spawn 1 (.getNonce "acme")] ++ acts 1 5 ⟨true, [], 0, "n1"⟩ ++
      [.spawn 1 (.signCsr .server "acme" "n1" "a.ca" 77 valid)] ++ acts 1 12 (sampleChoice 21)
  steps.map SiteStep.ca ++ [.store leaf "id-1"]

def siteStart : Site :=
  ⟨World.idle sampleStore, [], []⟩

theorem siteStart_init :
    site.init siteStart :=
  ⟨⟨sampleStore_initialised, World.idle_quiet _⟩, rfl, rfl⟩

/-- A leaf of ninety days, as the CA issues it in the sample. -/
def ninetyDays : Cert :=
  ⟨[0x50, 21], "a.ca", "CA E1", 1000, 1000 + 90 * day, 77, 2, 77, 2⟩

/-- A leaf of seven minutes. -/
def sevenMinutes : Cert :=
  ⟨[0x50, 21], "a.ca", "CA E1", 1000, 1420, 77, 2, 77, 2⟩

/-- The window of a leaf of ninety days is accepted. -/
theorem suggested_window_accepted_sample :
    ∃ (s : Site) (row : CertRow) (w : Window),
      row ∈ s.ca.shared.db.certIndex ∧
      s.renewalInfo "id-1" 5000000000000 = some w ∧
      w.start = 1000 + 90 * day - 2566080 ∧
      w.Accepted row := by
  have h :
      (site.follow drawn siteStart (orderOf none ninetyDays)).any (fun s =>
        s.certByAri "id-1" == some (certEntry ninetyDays "id-1") && s.accel == [] &&
          s.ca.shared.db.certIndex.contains (indexRow ninetyDays (.ee .server) "tls")) =
        true := by
    decide
  obtain ⟨s, hrun, hcheck⟩ := Automaton.Run.exists_of_follow h
  have hs := Automaton.Reachable.of_run siteStart_init hrun
  simp only [Bool.and_eq_true, beq_iff_eq, List.contains_iff_mem] at hcheck
  obtain ⟨⟨hcert, haccel⟩, hrow⟩ := hcheck
  have hinfo : s.renewalInfo "id-1" 5000000000000 = some ⟨5210920, 6999400⟩ := by
    simp only [Site.renewalInfo, hcert, Site.suggestedWindow, Site.replaceNow, Site.accelWindow,
      haccel]
    decide
  refine ⟨s, _, _, hrow, hinfo, by decide, ?_⟩
  refine (suggested_window_accepted_iff hs hcert hrow rfl (by decide) hinfo).mpr (Or.inr ?_)
  simp only [Site.accelWindow, haccel]
  show 100 ∣ 1000 + 90 * day - 1000
  decide

/-- The window of a leaf of seven minutes opens a second before the CA accepts a
successor. -/
theorem suggested_window_refused :
    ¬ ∀ s : Site, site.Reachable drawn s →
      ∀ (id : String) (cert : CertEntry), s.certByAri id = some cert →
        ∀ row ∈ s.ca.shared.db.certIndex, row.fingerprint = cert.leaf →
          ∀ now : Int, 0 ≤ now →
            ∀ w, s.renewalInfo id now = some w → w.Accepted row := by
  intro hall
  have h :
      (site.follow drawn siteStart (orderOf (some 420) sevenMinutes)).any (fun s =>
        s.certByAri "id-1" == some (certEntry sevenMinutes "id-1") && s.accel == [] &&
          s.ca.shared.db.certIndex.contains (indexRow sevenMinutes (.ee .server) "tls")) =
        true := by
    decide
  obtain ⟨s, hrun, hcheck⟩ := Automaton.Run.exists_of_follow h
  have hs := Automaton.Reachable.of_run siteStart_init hrun
  simp only [Bool.and_eq_true, beq_iff_eq, List.contains_iff_mem] at hcheck
  obtain ⟨⟨hcert, haccel⟩, hrow⟩ := hcheck
  have hinfo : s.renewalInfo "id-1" 1100000000000 = some ⟨1281, 1378⟩ := by
    simp only [Site.renewalInfo, hcert, Site.suggestedWindow, Site.replaceNow, Site.accelWindow,
      haccel]
    decide
  have haccepted := hall s hs "id-1" _ hcert _ hrow rfl 1100000000000 (by decide) _ hinfo
  have hblocks := haccepted 1281 (by decide) (by decide)
  revert hblocks
  decide

end Windows

end Bridge
end Yca
