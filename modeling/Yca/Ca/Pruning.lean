import Yca.Ca.Retention
import Yca.Ca.Succession

/-!
# The pruning rule and its query

`crl_entry_prunable` decides over one entry, from the previous CRL's thisUpdate and
the expiry of the certificate with that serial.  `prune_crl_entries` implements it
for a whole CRL with one query over the index, which only selects revoked rows.

An entry whose certificate is indexed as active tells the two apart.  A revocation
that dies between the CRL and its commit leaves such an entry behind.
-/

namespace Yca
namespace Ca

open Yca.Core

/-- The expiry of the certificate with a serial, none where the index knows no
such serial. -/
def notAfterOf (db : Db) (serial : List UInt8) : Option Nat :=
  (db.certIndex.find? fun row => row.serial == hexEncode serial).map CertRow.notAfter

/-- The entries that the rule keeps. -/
def keptByRule (db : Db) (prev : Crl) : List CrlEntry :=
  prev.entries.filter fun e =>
    !crlEntryPrunable prev.thisUpdate (notAfterOf db e.serial)

/-- No entry of a CRL is for a certificate that is indexed as active and had
expired when the CRL was issued. -/
def NoneLapsedActive (db : Db) (prev : Crl) : Prop :=
  ∀ e ∈ prev.entries, ∀ row ∈ db.certIndex,
    row.serial = hexEncode e.serial → row.status = .active → prev.thisUpdate ≤ row.notAfter

instance (db : Db) (prev : Crl) : Decidable (NoneLapsedActive db prev) := by
  unfold NoneLapsedActive
  infer_instance

section Rule

variable {db : Db} {prev : Crl}

/-- In an index in order, the rule asks the one row with the serial. -/
theorem crlEntryPrunable_iff
    (hindex : Indexed db)
    {serial : List UInt8} :
    crlEntryPrunable prev.thisUpdate (notAfterOf db serial) = true ↔
      ∃ row ∈ db.certIndex,
        row.serial = hexEncode serial ∧ row.notAfter < prev.thisUpdate := by
  constructor
  · intro h
    cases hfind : db.certIndex.find? fun row => row.serial == hexEncode serial with
    | none => simp [notAfterOf, hfind, crlEntryPrunable] at h
    | some row =>
        have hserial : row.serial = hexEncode serial := by
          simpa using List.find?_some hfind
        refine ⟨row, List.mem_of_find?_eq_some hfind, hserial, ?_⟩
        simpa [notAfterOf, hfind, crlEntryPrunable] using h
  · rintro ⟨row, hrow, hserial, hexpired⟩
    have hfind : (db.certIndex.find? fun row => row.serial == hexEncode serial) = some row := by
      refine find?_eq_of_only hrow (by simpa using hserial) ?_
      intro found hfound hsame
      have hsame : found.serial = hexEncode serial := by simpa using hsame
      exact hindex.eq hfound hrow (hsame.trans hserial.symm)
    simpa [notAfterOf, hfind, crlEntryPrunable] using hexpired

/-- What the query prunes, the rule prunes. -/
theorem crlEntryPrunable_of_mem
    (hindex : Indexed db)
    {serial : List UInt8}
    (h : hexEncode serial ∈ prunable db prev) :
    crlEntryPrunable prev.thisUpdate (notAfterOf db serial) = true := by
  obtain ⟨row, hrow, hserial, _, hexpired⟩ := mem_prunable.mp h
  exact (crlEntryPrunable_iff hindex).mpr ⟨row, hrow, hserial, hexpired⟩

/-- Over an index in order, query and rule agree on a CRL exactly when none of its
entries is for a lapsed certificate that is still active. -/
theorem pruneCrlEntries_eq_iff
    (hindex : Indexed db) :
    pruneCrlEntries db prev = keptByRule db prev ↔ NoneLapsedActive db prev := by
  constructor
  · intro hsame e he row hrow hserial hactive
    by_contra hlapsed
    have hpruned : crlEntryPrunable prev.thisUpdate (notAfterOf db e.serial) = true :=
      (crlEntryPrunable_iff hindex).mpr ⟨row, hrow, hserial, by omega⟩
    have hgone : e ∉ keptByRule db prev := by
      simp [keptByRule, hpruned]
    have hkept : e ∈ pruneCrlEntries db prev := by
      refine List.mem_filter.mpr ⟨he, ?_⟩
      -- the one row with the serial is not revoked
      have hmiss : hexEncode e.serial ∉ prunable db prev := by
        intro hmem
        obtain ⟨row', hrow', hserial', hrevoked, _⟩ := mem_prunable.mp hmem
        rw [hindex.eq hrow' hrow (hserial'.trans hserial.symm), hactive] at hrevoked
        cases hrevoked
      simpa using hmiss
    rw [hsame] at hkept
    exact hgone hkept
  · intro hnone
    refine List.filter_congr ?_
    intro e he
    have hagree : hexEncode e.serial ∈ prunable db prev ↔
        crlEntryPrunable prev.thisUpdate (notAfterOf db e.serial) = true := by
      refine ⟨crlEntryPrunable_of_mem hindex, ?_⟩
      intro hpruned
      obtain ⟨row, hrow, hserial, hexpired⟩ := (crlEntryPrunable_iff hindex).mp hpruned
      refine mem_prunable.mpr ⟨row, hrow, hserial, ?_, hexpired⟩
      cases hstatus : row.status with
      | revoked => rfl
      | active =>
          have hvalid := hnone e he row hrow hserial hstatus
          omega
    rw [Bool.eq_iff_iff]
    simp [hagree]

end Rule

section Runs

/-- In every store reachable with serials of their own, and for every previous CRL,
the query keeps what the rule keeps exactly when no entry is for a lapsed certificate
that is still indexed as active. -/
theorem pruning_follows_rule
    {w : World Store (Request × Command)}
    (hw : (ycaCalls.system Initialised).Reachable
      (Rules.freshSerials.calls fun _ => True) w)
    (prev : Crl) :
    pruneCrlEntries w.shared.db prev = keptByRule w.shared.db prev ↔
      NoneLapsedActive w.shared.db prev :=
  pruneCrlEntries_eq_iff (registered_of_reachable hw).indexed

/-- A leaf is issued and revoked, and its CRL is refreshed after it expired. -/
def refreshedAfterExpiry (revocation : List (Action Choice Request Outside)) :
    List (Action Choice Request Outside) :=
  [.spawn 1 (.issueEe .server "a.ca" none)] ++ acts 1 10 (sampleChoice 21) ++
    [.spawn 2 (.revoke .server "a.ca" "" "superseded")] ++ revocation ++
    [.env (.tick (91 * day)), .spawn 3 (.refreshCrl .signing)] ++ acts 3 15 (sampleChoice 0)

/-- Where the revocation was recorded, the next refresh drops the entry. -/
theorem pruning_follows_rule_sample :
    ∃ (w : World Store (Request × Command)) (prev : Crl),
      w.shared.crl "ca-e1" = some prev ∧
        prev.entries.length = 1 ∧
        pruneCrlEntries w.shared.db prev = [] ∧
        pruneCrlEntries w.shared.db prev = keptByRule w.shared.db prev := by
  have h :
      ((ycaCalls.system Initialised).follow (Rules.freshSerials.calls fun _ => True)
        (World.idle sampleStore) (refreshedAfterExpiry (acts 2 12 (sampleChoice 0)))).any
        (fun w => (w.shared.crl "ca-e1").any fun prev =>
          prev.entries.length == 1 && pruneCrlEntries w.shared.db prev == [] &&
            decide (NoneLapsedActive w.shared.db prev)) = true := by
    decide
  obtain ⟨w, hrun, hcheck⟩ := Automaton.Run.exists_of_follow h
  have hw := Automaton.Reachable.of_run
    (M := ycaCalls.system Initialised) ⟨sampleStore_initialised, World.idle_quiet _⟩ hrun
  obtain ⟨prev, hprev, hcheck⟩ := Option.any_eq_true _ _ |>.mp hcheck
  simp only [Bool.and_eq_true, beq_iff_eq, decide_eq_true_eq] at hcheck
  exact ⟨w, prev, hprev, hcheck.1.1, hcheck.1.2, (pruning_follows_rule hw prev).mpr hcheck.2⟩

/-- Where it died before its commit, the entry is past its final appearance and
stays on the CRL. -/
theorem lapsed_entry_kept :
    ∃ (w : World Store (Request × Command)) (row : CaRow) (prev : Crl),
      (ycaCalls.system Initialised).Reachable (Rules.freshSerials.calls fun _ => True) w ∧
        row ∈ w.shared.db.caIndex ∧
        w.shared.crl row.slug = some prev ∧
        pruneCrlEntries w.shared.db prev ≠ keptByRule w.shared.db prev := by
  have h :
      ((ycaCalls.system Initialised).follow (Rules.freshSerials.calls fun _ => True)
        (World.idle sampleStore) (refreshedAfterExpiry (acts 2 11 (sampleChoice 0) ++ [.crash 2]))).any
        (fun w => w.shared.db.caIndex.any fun row => (w.shared.crl row.slug).any fun prev =>
          pruneCrlEntries w.shared.db prev != keptByRule w.shared.db prev) = true := by
    decide
  obtain ⟨w, hrun, hcheck⟩ := Automaton.Run.exists_of_follow h
  have hw := Automaton.Reachable.of_run
    (M := ycaCalls.system Initialised) ⟨sampleStore_initialised, World.idle_quiet _⟩ hrun
  simp only [List.any_eq_true, Option.any_eq_true, bne_iff_ne] at hcheck
  obtain ⟨row, hrow, prev, hprev, hne⟩ := hcheck
  exact ⟨w, row, prev, hw, hrow, hprev, hne⟩

end Runs

end Ca
end Yca
