import Yca.Ca.Safety
import Yca.Ca.Initial

/-!
# One certificate for a name and profile

The duplicate check of `issue_ee` and `sign_csr` runs again under the write
lock, and a row only ever stops blocking as time passes.  So whatever commands
run, in any interleaving, no two rows of one common name and profile block a
successor at the same time.
-/

namespace Yca
namespace Ca

open Yca.Core

/-- All runs. -/
def Rules.free : Rules where
  issuance := True
  ceremonies := True
  caRevocation := True
  keep _ _ := False
  keep_mono _ _ _ _ h := h
  only _ _ := True

theorem Rules.free_allow (p : Pid) (s : Store) (e : Event) :
    Rules.free.allow p s e := by
  cases e <;> simp [Rules.allow, Rules.free]

instance (p : Pid) (s : Store) (e : Event) : Decidable (Rules.free.allow p s e) :=
  isTrue (Rules.free_allow p s e)

theorem Rules.free_admits (req : Request) :
    Rules.free.Admits req := by
  cases req <;> trivial

/-- How many rows of a common name and profile block a successor. -/
def blockers (db : Db) (cn : String) (profile : Profile) (now : Nat) : Nat :=
  db.certIndex.countP fun row => row.blocks cn (.ee profile) now

/-- From now on, at most one row of each common name and profile blocks. -/
def Unblocked (s : Store) : Prop :=
  ∀ cn profile t, s.now ≤ t → blockers s.db cn profile t ≤ 1

section Rows

variable {rows : List CertRow} {cn : String} {kind : Kind} {now : Nat}

/-- Rewriting rows so that none starts to match does not raise the count. -/
theorem countP_updateWhere_le
    {α : Type}
    {count p : α → Bool}
    {f : α → α}
    (hf : ∀ x, count (f x) = true → count x = true)
    (l : List α) :
    (updateWhere p f l).countP count ≤ l.countP count := by
  unfold updateWhere
  rw [List.countP_map]
  refine List.countP_mono_left ?_
  intro x _ hx
  simp only [Function.comp] at hx
  split at hx
  · exact hf x hx
  · exact hx

theorem countP_markRevoked_le (fp : Cert) (reason : Reason) (at_ : Nat) :
    (markRevoked rows fp reason at_).countP (fun row => row.blocks cn kind now) ≤
      rows.countP fun row => row.blocks cn kind now := by
  refine countP_updateWhere_le ?_ rows
  intro row hrow
  simp [CertRow.blocks] at hrow

/-- Indexing a certificate adds at most its own row. -/
theorem countP_indexCert_le (c : Cert) (k : Kind) (purpose : String) :
    (indexCert rows c k purpose).countP (fun row => row.blocks cn kind now) ≤
      rows.countP (fun row => row.blocks cn kind now) +
        if (indexRow c k purpose).blocks cn kind now then 1 else 0 := by
  unfold indexCert
  rw [List.countP_append, List.countP_singleton]
  exact Nat.add_le_add_right (List.Sublist.countP_le List.filter_sublist) _

/-- A new leaf joins rows none of which blocks its name. -/
theorem countP_indexCert_issue
    {c : Cert}
    {profile issued : Profile}
    {purpose : String}
    (hfree : rows.any (fun row => row.blocks c.subjectCn (.ee issued) now) = false)
    (hrows : rows.countP (fun row => row.blocks cn (.ee profile) now) ≤ 1) :
    (indexCert rows c (.ee issued) purpose).countP
      (fun row => row.blocks cn (.ee profile) now) ≤ 1 := by
  refine Nat.le_trans (countP_indexCert_le c (.ee issued) purpose) ?_
  by_cases hsame : c.subjectCn = cn ∧ issued = profile
  · obtain ⟨rfl, rfl⟩ := hsame
    have hzero : rows.countP (fun row => row.blocks c.subjectCn (.ee issued) now) = 0 := by
      rw [List.countP_eq_zero]
      intro row hrow
      exact List.any_eq_false.mp hfree row hrow
    rw [hzero]
    split
    · exact Nat.le_refl _
    · exact Nat.zero_le _
  · have hother : (indexRow c (.ee issued) purpose).blocks cn (.ee profile) now = false := by
      by_cases hcn : c.subjectCn = cn
      · have hprofile : issued ≠ profile := fun h => hsame ⟨hcn, h⟩
        simp [CertRow.blocks, indexRow, hprofile]
      · simp [CertRow.blocks, indexRow, hcn]
    simpa [hother] using hrows

end Rows

section Steps

/-- No transaction that meets its contract lets a second row block. -/
theorem Unblocked.commit
    {r : Rules}
    {p : Pid}
    {s : Store}
    {tx : Tx}
    (h : Unblocked s)
    (hmeets : Meets r p s (.commit tx)) :
    Unblocked (s.apply p (.commit tx)) := by
  obtain ⟨_, hrun, htx⟩ := hmeets
  obtain ⟨db, hdb⟩ := Option.isSome_iff_exists.mp hrun
  rw [apply_commit p hdb]
  intro cn profile t ht
  have hrows : s.db.certIndex.countP (fun row => row.blocks cn (.ee profile) t) ≤ 1 :=
    h cn profile t ht
  show db.certIndex.countP _ ≤ 1
  rw [run_certIndex hdb]
  cases tx with
  | issue cert issuer issued purpose id =>
      exact countP_indexCert_issue (blockingDuplicate_mono ht htx.2.1) hrows
  | revoke fp reason at_ => exact Nat.le_trans (countP_markRevoked_le fp reason at_) hrows
  | revokeCa victim cert reason at_ =>
      exact Nat.le_trans (countP_markRevoked_le cert reason at_) hrows
  | generation next cert key lock =>
      refine Nat.le_trans (countP_indexCert_le cert (.ca .signing) next.purpose) ?_
      have hkind : (indexRow cert (.ca .signing) next.purpose).blocks cn (.ee profile) t =
          false := by
        simp [CertRow.blocks, indexRow]
      simpa [hkind] using hrows
  | _ => exact hrows

/-- A step that does not touch the index. -/
theorem Unblocked.frame
    {s s' : Store}
    (h : Unblocked s)
    (hindex : s'.db.certIndex = s.db.certIndex)
    (hnow : s.now ≤ s'.now) :
    Unblocked s' := by
  intro cn profile t ht
  unfold blockers
  rw [hindex]
  exact h cn profile t (Nat.le_trans hnow ht)

theorem Unblocked.event
    {r : Rules}
    {p : Pid}
    {s : Store}
    {e : Event}
    (h : Unblocked s)
    (hmeets : Meets r p s e) :
    Unblocked (s.apply p e) := by
  cases e with
  | commit tx => exact h.commit hmeets
  | key use => exact h.frame (by simp) (by simp)
  | publish slug issuer file => cases file <;> exact h.frame rfl (Nat.le_refl _)
  | _ => exact h.frame rfl (Nat.le_refl _)

/-- The ceremony issues no leaf. -/
theorem Initialised.unblocked
    {s : Store}
    (h : Initialised s) :
    Unblocked s := by
  obtain ⟨config, rootCert, rootKey, minted, hs⟩ := h.ceremony
  intro cn profile t _
  have hzero : blockers s.db cn profile t = 0 := by
    unfold blockers
    rw [List.countP_eq_zero, hs.db]
    intro row hrow
    rcases List.mem_cons.mp hrow with rfl | hrow
    · simp [CertRow.blocks, indexRow]
    · obtain ⟨m, _, rfl⟩ := List.mem_map.mp hrow
      simp [CertRow.blocks, indexRow]
  omega

end Steps

/-- At every instant, in every interleaving of the commands over an initialised
store, at most one row of each common name and profile is active, unexpired and
outside its renewal window. -/
theorem at_most_one_blocking
    {w : World Store Command}
    (hw : (yca.system Initialised).Reachable (commands fun _ => True) w)
    (cn : String)
    (profile : Profile)
    {t : Nat}
    (ht : w.shared.now ≤ t) :
    blockers w.shared.db cn profile t ≤ 1 := by
  have hfree := hw.mono fun _ _ h => Rules.runs_of_commands Rules.free_allow h
  have hall : Unblocked w.shared := by
    refine holds_of_reachable (fun req _ => Rules.free_admits req)
      (fun s hs => hs.unblocked) ?_ hfree
    intro s s' hs hmove
    refine keeps_of_events ?_ ?_ hs hmove
    · intro s p e hs _ hmeets
      exact hs.event hmeets
    · intro s s' hs hdb _ _ _ hnow
      exact hs.frame (congrArg Db.certIndex hdb) hnow
  exact hall cn profile t ht

/-- Two processes ask for the same leaf; the one that gets the lock first
issues it, and the other's check under the lock finds it. -/
theorem at_most_one_blocking_sample :
    ∃ w : World Store Command,
      blockers w.shared.db "a.ca" .server w.shared.now = 1 ∧
      blockers w.shared.db "a.ca" .server w.shared.now ≤ 1 := by
  have h :
      ((yca.system Initialised).follow (commands fun _ => True)
        (World.idle sampleStore)
        ([.spawn 1 (.issueEe .server "a.ca" none), .spawn 2 (.issueEe .server "a.ca" none)] ++
          acts 1 6 (sampleChoice 21) ++ acts 2 6 (sampleChoice 22) ++
          acts 1 4 (sampleChoice 23) ++ [.env (.tick 5)] ++ acts 2 3 (sampleChoice 24))).any
        (fun w => blockers w.shared.db "a.ca" .server w.shared.now == 1) = true := by
    decide
  obtain ⟨w, hrun, hone⟩ := Automaton.Run.exists_of_follow h
  have hw := Automaton.Reachable.of_run
    (M := yca.system Initialised) ⟨sampleStore_initialised, World.idle_quiet _⟩ hrun
  exact ⟨w, by simpa using hone, at_most_one_blocking hw "a.ca" .server (Nat.le_refl _)⟩

end Ca
end Yca
