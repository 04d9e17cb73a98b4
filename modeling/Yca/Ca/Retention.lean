import Yca.Ca.Safety
import Yca.Ca.Index

/-!
# How CRLs change

`revoke`, `revoke_ca` and `refresh_crl` rewrite a CRL under the write lock from
the file they read there.  In every interleaving of them, with crashes at any
point, an entry leaves a CRL only after a CRL that carried it was issued past
the certificate's expiry, and each new CRL has the next number.
-/

namespace Yca
namespace Ca

open Yca.Core

section Index

/-- A store nobody works on. -/
def Resting (s : Store) : Prop :=
  s.lock = none ∧ Indexed s.db

/-- A serial is on the CRL of a slug. -/
def Lists (s : Store) (slug : String) (serial : List UInt8) : Prop :=
  ∃ crl, s.crl slug = some crl ∧ ∃ e ∈ crl.entries, e.serial = serial

/-- The CRL of a slug carries a serial and was issued after the certificate of
that serial expired. -/
def PublishedExpired (s : Store) (slug : String) (serial : List UInt8) : Prop :=
  ∃ crl, s.crl slug = some crl ∧ (∃ e ∈ crl.entries, e.serial = serial) ∧
    (∃ row ∈ s.db.certIndex, row.fingerprint.serial = serial) ∧
    ∀ row ∈ s.db.certIndex, row.fingerprint.serial = serial →
      row.fingerprint.notAfter < crl.thisUpdate

/-- The query finds the serials of revoked rows past expiry. -/
theorem mem_prunable
    {db : Db}
    {prev : Crl}
    {serial : List UInt8} :
    hexEncode serial ∈ prunable db prev ↔
      ∃ row ∈ db.certIndex,
        row.serial = hexEncode serial ∧ row.status = .revoked ∧
          row.notAfter < prev.thisUpdate := by
  simp only [prunable, List.mem_map, List.mem_filter, Bool.and_eq_true, beq_iff_eq,
    decide_eq_true_eq]
  constructor
  · rintro ⟨row, ⟨hrow, hrevoked, hexpired⟩, hserial⟩
    exact ⟨row, hrow, hserial, hrevoked, hexpired⟩
  · rintro ⟨row, hrow, hserial, hrevoked, hexpired⟩
    exact ⟨row, ⟨hrow, hrevoked, hexpired⟩, hserial⟩

/-- An entry is kept, or its certificate was past expiry when the previous CRL
was issued. -/
theorem kept_or_expired
    {db : Db}
    (hindex : Indexed db)
    {prev : Crl}
    {e : CrlEntry}
    (he : e ∈ prev.entries) :
    e ∈ pruneCrlEntries db prev ∨
      ((∃ row ∈ db.certIndex, row.fingerprint.serial = e.serial) ∧
        ∀ row ∈ db.certIndex, row.fingerprint.serial = e.serial →
          row.fingerprint.notAfter < prev.thisUpdate) := by
  by_cases hprune : hexEncode e.serial ∈ prunable db prev
  · right
    obtain ⟨row, hrow, hserial, _, hexpired⟩ := mem_prunable.mp hprune
    rw [(hindex.faithful row hrow).serial] at hserial
    have hsame := hexEncode_inj hserial
    refine ⟨⟨row, hrow, hsame⟩, ?_⟩
    intro row' hrow' hserial'
    rw [hindex.distinct.eq hrow' hrow (hserial'.trans hsame.symm),
      ← (hindex.faithful row hrow).notAfter]
    exact hexpired
  · left
    exact List.mem_filter.mpr ⟨he, by simpa using hprune⟩

end Index

section Runs

/-- The commands that rewrite CRLs. -/
def Request.revokes : Request → Bool
  | .revoke .. => true
  | .revokeCa .. => true
  | .refreshCrl .. => true
  | _ => false

/-- A run of these commands. -/
abbrev revocations : yca.Guarded :=
  commands fun req => req.revokes = true

/-- Runs in which nothing is issued: no CRL is published by a ceremony. -/
def Rules.revocations : Rules where
  issuance := False
  ceremonies := False
  caRevocation := True
  keep _ _ := True
  keep_mono _ _ _ _ h := h
  only _ _ := True

theorem Rules.revocations_allow (p : Pid) (s : Store) (e : Event) :
    Rules.revocations.allow p s e := by
  cases e <;> simp [Rules.allow, Rules.revocations]

theorem Rules.revocations_admits (req : Request) (h : req.revokes = true) :
    Rules.revocations.Admits req := by
  cases req <;> trivial

/-- Revoking changes no certificate. -/
theorem Indexed.event
    {p : Pid}
    {s : Store}
    {e : Event}
    (h : Indexed s.db)
    (hmeets : Meets Rules.revocations p s e) :
    Indexed (s.apply p e).db := by
  cases e with
  | commit tx =>
      obtain ⟨_, hrun, htx⟩ := hmeets
      obtain ⟨db, hdb⟩ := Option.isSome_iff_exists.mp hrun
      rw [apply_commit p hdb]
      refine h.run hdb ?_
      cases tx with
      | issue cert issuer profile purpose id => exact htx.1.elim
      | generation next cert key lock => exact htx.1.elim
      | _ => trivial
  | key use => exact h.congr (by simp)
  | publish slug issuer file => exact hmeets.1.elim
  | _ => exact h.congr rfl

theorem indexed_of_reachable
    {w : World Store Command}
    (hw : (yca.system Resting).Reachable (Rules.revocations.runs fun req => req.revokes = true) w) :
    Indexed w.shared.db := by
  refine holds_of_reachable (P := fun s => Indexed s.db) Rules.revocations_admits
    (fun s hs => hs.2) ?_ hw
  intro s s' hs hmove
  refine keeps_of_events (P := fun s => Indexed s.db) ?_ ?_ hs hmove
  · intro s p e hs _ hmeets
    exact hs.event hmeets
  · intro s s' hs hdb _ _ _ _
    exact hs.congr (congrArg Db.certIndex hdb)

/-- One step leaves the CRL of a slug alone or puts its successor in place. -/
theorem crl_of_moves
    {s s' : Store}
    (hmove : (discipline Rules.revocations).Moves machine s s')
    (slug : String) :
    s'.crl slug = s.crl slug ∨
      ∃ p w, RewriteMeets Rules.revocations p s w ∧ w.slug = slug ∧
        s.crl slug = some w.prev ∧ s'.crl slug = some w.crl := by
  cases hmove with
  | spawn => exact Or.inl rfl
  | die p =>
      left
      show (s.die p).crl slug = s.crl slug
      unfold Store.die
      split <;> rfl
  | env o ho =>
      left
      cases o <;> rw [← Option.some.inj ho]
  | event p e hallow hmeets =>
      cases e with
      | rewrite w =>
          by_cases hslug : w.slug = slug
          · right
            refine ⟨p, w, hmeets, hslug, ?_, ?_⟩
            · rw [← hslug]
              exact hmeets.prev trivial
            · rw [← hslug]
              exact Function.update_self _ _ _
          · exact Or.inl (Function.update_of_ne (Ne.symm hslug) _ _)
      | key use =>
          left
          show (s.apply p (.key use)).crl slug = s.crl slug
          rw [(apply_key_db p use s).2.2.2]
      | publish other issuer file => exact hmeets.1.elim
      | _ => exact Or.inl rfl

/-- In every interleaving of `revoke`, `revoke_ca` and `refresh_crl`, with
crashes anywhere: a serial that is no longer on the CRL of a slug was carried,
in between, by a CRL issued after the certificate's expiry; and every new CRL
has the number after its predecessor's. -/
theorem crl_entries_and_numbers
    {w₁ w₂ : World Store Command}
    {ks : List (Action Choice Request Outside)}
    (h₁ : (yca.system Resting).Reachable revocations w₁)
    (hrun : (yca.system Resting).Run revocations w₁ ks w₂)
    (slug : String) :
    (∀ serial, Lists w₁.shared slug serial → ¬ Lists w₂.shared slug serial →
      ∃ ks₁ ks₂ m,
        ks = ks₁ ++ ks₂ ∧
        (yca.system Resting).Run revocations w₁ ks₁ m ∧
        (yca.system Resting).Run revocations m ks₂ w₂ ∧
        PublishedExpired m.shared slug serial) ∧
    (∀ a w, revocations w₂ a → yca.exec w₂ a = some w →
      w.shared.crl slug ≠ w₂.shared.crl slug →
      ∃ prev next,
        w₂.shared.crl slug = some prev ∧
        w.shared.crl slug = some next ∧
        (prev.number.toNat < 2 ^ 32 - 1 →
          next.number.toNat = prev.number.toNat + 1)) := by
  have hfree : ∀ w a, revocations w a →
      Rules.revocations.runs (fun req => req.revokes = true) w a :=
    fun _ _ h => Rules.runs_of_commands Rules.revocations_allow h
  have hindexed : ∀ w, (yca.system Resting).Reachable revocations w →
      Indexed w.shared.db ∧ (yca.system Resting).Reachable revocations w :=
    fun w hw => ⟨indexed_of_reachable (hw.mono hfree), hw⟩
  constructor
  · intro serial hlists hgone
    -- Whatever step drops the entry drops it from a CRL issued past the expiry.
    have hstep : ∀ (w : World Store Command) a w',
        (Indexed w.shared.db ∧ (yca.system Resting).Reachable revocations w) →
        revocations w a → (yca.system Resting).exec w a = some w' →
        Lists w.shared slug serial →
        Lists w'.shared slug serial ∨ PublishedExpired w.shared slug serial := by
      rintro w a w' ⟨hindex, hw⟩ hG hx ⟨crl, hcrl, e, he, hserial⟩
      have hmove := moves_of_exec Rules.revocations_admits (hw.mono hfree) (hfree w a hG) hx
      rcases crl_of_moves hmove slug with hsame | ⟨p, rw, hrw, _, hprev, hnext⟩
      · exact Or.inl ⟨crl, hsame.trans hcrl, e, he, hserial⟩
      · rw [hcrl] at hprev
        have hprev := Option.some.inj hprev
        subst hprev
        subst hserial
        rcases kept_or_expired hindex he with hkept | ⟨hrow, hexpired⟩
        · left
          obtain ⟨reason, hentries⟩ := hrw.entries
          refine ⟨rw.crl, hnext, e, ?_, rfl⟩
          rw [hentries]
          exact List.mem_append_left _ hkept
        · exact Or.inr ⟨_, hcrl, ⟨e, he, rfl⟩, hrow, hexpired⟩
    obtain ⟨ks₁, ks₂, m, hks, hrun₁, hrun₂, _, hpublished⟩ :=
      Automaton.Run.unless hindexed hstep h₁ hrun hlists hgone
    exact ⟨ks₁, ks₂, m, hks, hrun₁, hrun₂, hpublished⟩
  · intro a w hG hx hchanged
    have h₂ := h₁.run hrun
    have hmove := moves_of_exec Rules.revocations_admits (h₂.mono hfree) (hfree w₂ a hG) hx
    rcases crl_of_moves hmove slug with hsame | ⟨p, rw, hrw, _, hprev, hnext⟩
    · exact absurd hsame hchanged
    · refine ⟨rw.prev, rw.crl, hprev, hnext, ?_⟩
      intro hbound
      rw [hrw.number, UInt32.toNat_add]
      have hone : (1 : UInt32).toNat = 1 := rfl
      rw [hone]
      omega

/-- A store at rest, with a revoked leaf on the CRL of its issuer. -/
def sampleLeaf : Cert :=
  ⟨[0x60], "a.ca", "CA E1", 1000, 2000, 9, 2, 9, 2⟩

def restingStore : Store :=
  { sampleStore with
    db :=
      { sampleStore.db with
        certIndex :=
          markRevoked (indexCert sampleStore.db.certIndex sampleLeaf (.ee .server) "tls")
            sampleLeaf .superseded 1500 }
    crl :=
      Function.update sampleStore.crl "ca-e1" (some ⟨[⟨[0x60], .superseded⟩], 2, 1500, 9000, 2, 2⟩)
    now := 1500 }

/-- The leaf expires; the next refresh still publishes its entry, and the one
after that prunes it. -/
theorem crl_entries_and_numbers_sample :
    ∃ (w₁ w₂ : World Store Command) (ks : List (Action Choice Request Outside)),
      Lists w₁.shared "ca-e1" [0x60] ∧
      ¬ Lists w₂.shared "ca-e1" [0x60] ∧
      ∃ ks₁ ks₂ m,
        ks = ks₁ ++ ks₂ ∧
        (yca.system Resting).Run revocations w₁ ks₁ m ∧
        (yca.system Resting).Run revocations m ks₂ w₂ ∧
        PublishedExpired m.shared "ca-e1" [0x60] := by
  have hissued : Indexed { sampleStore.db with
      certIndex := indexCert sampleStore.db.certIndex sampleLeaf (.ee .server) "tls" } :=
    sampleStore_initialised.indexed.1.indexCert (by decide) rfl
  have hresting : Resting restingStore :=
    ⟨by decide, hissued.markRevoked rfl⟩
  have hlists : Lists restingStore "ca-e1" [0x60] :=
    ⟨_, rfl, ⟨[0x60], .superseded⟩, by decide, rfl⟩
  have hpruned :
      ((yca.system Resting).follow revocations (World.idle restingStore)
        ([.env (.tick 600), .spawn 1 (.refreshCrl .signing)] ++ acts 1 15 (sampleChoice 0) ++
          [.spawn 1 (.refreshCrl .signing)] ++ acts 1 15 (sampleChoice 0))).any
        (fun w => (w.shared.crl "ca-e1").any fun crl => crl.entries == [] && crl.number == 4) =
          true := by
    decide
  obtain ⟨w₂, hrun, hcheck⟩ := Automaton.Run.exists_of_follow hpruned
  have hgone : ¬ Lists w₂.shared "ca-e1" [0x60] := by
    rintro ⟨crl, hcrl, e, he, _⟩
    simp only [hcrl, Option.any_some, Bool.and_eq_true, beq_iff_eq] at hcheck
    simp [hcheck.1] at he
  have hw₁ : (yca.system Resting).Reachable revocations (World.idle restingStore) :=
    Automaton.Reachable.of_init ⟨hresting, World.idle_quiet _⟩
  exact ⟨_, w₂, _, hlists, hgone,
    (crl_entries_and_numbers hw₁ hrun "ca-e1").1 [0x60] hlists hgone⟩

end Runs

end Ca
end Yca
