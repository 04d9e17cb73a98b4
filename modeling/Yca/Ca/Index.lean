import Yca.Ca.Initial

/-!
# The index of certificates

Every row of `cert_index` is what `index_cert` wrote for its certificate, but for
its status, and serials tell certificates apart.  Every transaction keeps this
as long as new certificates come with serials of their own.
-/

namespace Yca
namespace Ca

open Yca.Core

section Hex

theorem hexDigit_inj
    {m n : Nat}
    (hm : m < 16)
    (hn : n < 16)
    (h : hexDigit m = hexDigit n) :
    m = n := by
  have hall : ∀ a b : Fin 16, hexDigit a = hexDigit b → a = b := by decide
  exact congrArg Fin.val (hall ⟨m, hm⟩ ⟨n, hn⟩ h)

theorem hexDigits_inj
    {as bs : List UInt8}
    (h : hexDigits as = hexDigits bs) :
    as = bs := by
  induction as generalizing bs with
  | nil =>
      cases bs with
      | nil => rfl
      | cons b bs => simp [hexDigits] at h
  | cons a as ih =>
      cases bs with
      | nil => simp [hexDigits] at h
      | cons b bs =>
          simp only [hexDigits, List.cons.injEq] at h
          obtain ⟨hhigh, hlow, hrest⟩ := h
          have ha := a.toNat_lt
          have hb := b.toNat_lt
          have hdiv := hexDigit_inj (by omega) (by omega) hhigh
          have hmod := hexDigit_inj (by omega) (by omega) hlow
          have hab : a.toNat = b.toNat := by omega
          rw [UInt8.toNat_inj.mp hab, ih hrest]

/-- Serials are told apart by their text. -/
theorem hexEncode_inj
    {as bs : List UInt8}
    (h : hexEncode as = hexEncode bs) :
    as = bs := by
  refine hexDigits_inj ?_
  have hlist := congrArg String.toList h
  simpa [hexEncode] using hlist

/-- A digit is one that `normalize_serial` leaves alone. -/
theorem hexDigit_plain : ∀ n : Fin 16,
    (hexDigit n != ':') = true ∧ toUpper (hexDigit n) = hexDigit n := by
  decide

theorem hexDigits_plain
    {bs : List UInt8}
    {c : Char}
    (hc : c ∈ hexDigits bs) :
    (c != ':') = true ∧ toUpper c = c := by
  induction bs with
  | nil => simp [hexDigits] at hc
  | cons b bs ih =>
      have hb := b.toNat_lt
      simp only [hexDigits, List.mem_cons] at hc
      rcases hc with rfl | rfl | hc
      · exact hexDigit_plain ⟨b.toNat / 16, by omega⟩
      · exact hexDigit_plain ⟨b.toNat % 16, by omega⟩
      · exact ih hc

/-- A serial whose first byte has no leading zero digit keeps its text. -/
theorem normalizeSerial_hexEncode
    {b : UInt8}
    {bs : List UInt8}
    (hb : 16 ≤ b.toNat) :
    normalizeSerial (hexEncode (b :: bs)) = hexEncode (b :: bs) := by
  have hfilter : (hexDigits (b :: bs)).filter (fun c => c != ':') = hexDigits (b :: bs) :=
    List.filter_eq_self.mpr fun c hc => (hexDigits_plain hc).1
  have hmap : (hexDigits (b :: bs)).map toUpper = hexDigits (b :: bs) :=
    (List.map_congr_left fun c hc => (hexDigits_plain hc).2).trans (List.map_id _)
  have hfirst : (hexDigit (b.toNat / 16) == '0') = false := by
    have hlt := b.toNat_lt
    have hall : ∀ n : Fin 16, 1 ≤ n.val → (hexDigit n == '0') = false := by decide
    exact hall ⟨b.toNat / 16, by omega⟩ (by show 1 ≤ b.toNat / 16; omega)
  simp only [normalizeSerial, hexEncode, String.toList_ofList, hfilter, hmap]
  simp [hexDigits, hfirst]

end Hex

section Index

/-- A row is what `index_cert` made of its certificate, but for its status. -/
structure CertRow.Faithful (row : CertRow) : Prop where
  cn : row.cn = row.fingerprint.subjectCn
  serial : row.serial = hexEncode row.fingerprint.serial
  notBefore : row.notBefore = row.fingerprint.notBefore
  notAfter : row.notAfter = row.fingerprint.notAfter
  ski : row.ski = row.fingerprint.ski
  aki : row.aki = row.fingerprint.aki

theorem indexRow_faithful (c : Cert) (kind : Kind) (purpose : String) :
    (indexRow c kind purpose).Faithful :=
  ⟨rfl, rfl, rfl, rfl, rfl, rfl⟩

/-- Every row is about its certificate, as `index_cert` writes it, and no two
certificates share a serial. -/
structure Indexed (db : Db) : Prop where
  faithful : ∀ row ∈ db.certIndex, row.Faithful
  distinct : UniqueKey (fun row : CertRow => row.fingerprint.serial) db.certIndex

/-- A transaction only indexes certificates with a serial of their own. -/
def Tx.Fresh (db : Db) : Tx → Prop
  | .issue cert _ _ _ _ => ∀ row ∈ db.certIndex, row.serial ≠ hexEncode cert.serial
  | .generation _ cert _ _ => ∀ row ∈ db.certIndex, row.serial ≠ hexEncode cert.serial
  | _ => True

instance (db : Db) (tx : Tx) : Decidable (tx.Fresh db) := by
  unfold Tx.Fresh
  split <;> infer_instance

variable {db db' : Db}

/-- The text of a serial finds one row. -/
theorem Indexed.eq
    (h : Indexed db)
    {row row' : CertRow}
    (hrow : row ∈ db.certIndex)
    (hrow' : row' ∈ db.certIndex)
    (hserial : row.serial = row'.serial) :
    row = row' := by
  refine h.distinct.eq hrow hrow' (hexEncode_inj ?_)
  rw [← (h.faithful row hrow).serial, ← (h.faithful row' hrow').serial]
  exact hserial

theorem Indexed.congr
    (h : Indexed db)
    (hindex : db'.certIndex = db.certIndex) :
    Indexed db' := by
  constructor
  · rw [hindex]
    exact h.faithful
  · rw [hindex]
    exact h.distinct

/-- Revoking rows keeps the index. -/
theorem Indexed.markRevoked
    (h : Indexed db)
    {fp : Cert}
    {reason : Reason}
    {at_ : Nat}
    (hindex : db'.certIndex = markRevoked db.certIndex fp reason at_) :
    Indexed db' := by
  constructor
  · intro row hrow
    rw [hindex] at hrow
    obtain ⟨row₀, hrow₀, ⟨_, rfl⟩ | ⟨_, rfl⟩⟩ := mem_updateWhere.mp hrow
    · have hold := h.faithful row₀ hrow₀
      exact ⟨hold.cn, hold.serial, hold.notBefore, hold.notAfter, hold.ski, hold.aki⟩
    · exact h.faithful row hrow₀
  · rw [hindex]
    exact h.distinct.updateWhere _ fun _ => rfl

/-- Indexing a certificate with a serial of its own. -/
theorem Indexed.indexCert
    (h : Indexed db)
    {c : Cert}
    {kind : Kind}
    {purpose : String}
    (hfresh : ∀ row ∈ db.certIndex, row.serial ≠ hexEncode c.serial)
    (hindex : db'.certIndex = indexCert db.certIndex c kind purpose) :
    Indexed db' := by
  constructor
  · intro row hrow
    rw [hindex] at hrow
    rcases mem_indexCert hrow with hold | rfl
    · exact h.faithful row hold
    · exact indexRow_faithful c kind purpose
  · rw [hindex]
    refine (h.distinct.filter _).append ?_
    intro row hrow hserial
    have hold := List.mem_of_mem_filter hrow
    refine hfresh row hold ?_
    rw [(h.faithful row hold).serial]
    exact congrArg hexEncode hserial

/-- Transactions index certificates as they are. -/
theorem faithful_run
    {tx : Tx}
    (hdb : tx.run db = some db')
    (h : ∀ row ∈ db.certIndex, row.Faithful) :
    ∀ row ∈ db'.certIndex, row.Faithful := by
  have hmarked : ∀ fp reason at_, ∀ row ∈ markRevoked db.certIndex fp reason at_,
      row.Faithful := by
    intro fp reason at_ row hrow
    obtain ⟨row₀, hrow₀, ⟨_, rfl⟩ | ⟨_, rfl⟩⟩ := mem_updateWhere.mp hrow
    · obtain ⟨hcn, hserial, hbefore, hafter, hski, haki⟩ := h row₀ hrow₀
      exact ⟨hcn, hserial, hbefore, hafter, hski, haki⟩
    · exact h row hrow₀
  have hindexed : ∀ c kind purpose, ∀ row ∈ indexCert db.certIndex c kind purpose,
      row.Faithful := by
    intro c kind purpose row hrow
    rcases mem_indexCert hrow with hold | rfl
    · exact h row hold
    · exact indexRow_faithful c kind purpose
  rw [run_certIndex hdb]
  cases tx with
  | issue cert issuer profile purpose id => exact hindexed cert _ _
  | generation next cert key lock => exact hindexed cert _ _
  | revoke fp reason at_ => exact hmarked fp reason at_
  | revokeCa victim cert reason at_ => exact hmarked cert reason at_
  | _ => exact h

/-- Every transaction keeps the index. -/
theorem Indexed.run
    (h : Indexed db)
    {tx : Tx}
    (hdb : tx.run db = some db')
    (hfresh : tx.Fresh db) :
    Indexed db' := by
  have hindex := run_certIndex hdb
  cases tx with
  | issue cert issuer profile purpose id => exact h.indexCert hfresh hindex
  | generation next cert key lock => exact h.indexCert hfresh hindex
  | revoke fp reason at_ => exact h.markRevoked hindex
  | revokeCa victim cert reason at_ => exact h.markRevoked hindex
  | _ => exact h.congr hindex

/-- A row stays, but may become revoked. -/
theorem Indexed.row_of_run
    (h : Indexed db)
    {tx : Tx}
    (hdb : tx.run db = some db')
    (hfresh : tx.Fresh db)
    {row : CertRow}
    (hrow : row ∈ db.certIndex) :
    ∃ row' ∈ db'.certIndex,
      row'.fingerprint = row.fingerprint ∧
      row'.kind = row.kind ∧
      (row'.status = row.status ∨ row'.status = .revoked) := by
  have hother : ∀ c : Cert, (∀ row ∈ db.certIndex, row.serial ≠ hexEncode c.serial) →
      row.fingerprint ≠ c := by
    rintro c hc rfl
    exact hc row hrow (h.faithful row hrow).serial
  have hmarked : ∀ fp reason at_, ∃ row' ∈ Ca.markRevoked db.certIndex fp reason at_,
      row'.fingerprint = row.fingerprint ∧ row'.kind = row.kind ∧
        (row'.status = row.status ∨ row'.status = .revoked) := by
    intro fp reason at_
    by_cases hfp : row.fingerprint = fp
    · exact ⟨_, mem_updateWhere.mpr ⟨row, hrow, Or.inl ⟨by simpa using hfp, rfl⟩⟩, rfl, rfl,
        Or.inr rfl⟩
    · exact ⟨row, mem_updateWhere.mpr ⟨row, hrow, Or.inr ⟨by simpa using hfp, rfl⟩⟩, rfl, rfl,
        Or.inl rfl⟩
  rw [run_certIndex hdb]
  cases tx with
  | issue cert issuer profile purpose id =>
      exact ⟨row, mem_indexCert_of_ne hrow (hother cert hfresh), rfl, rfl, Or.inl rfl⟩
  | generation next cert key lock =>
      exact ⟨row, mem_indexCert_of_ne hrow (hother cert hfresh), rfl, rfl, Or.inl rfl⟩
  | revoke fp reason at_ => exact hmarked fp reason at_
  | revokeCa victim cert reason at_ => exact hmarked cert reason at_
  | _ => exact ⟨row, hrow, rfl, rfl, Or.inl rfl⟩

/-- The rows after a transaction: the old ones, some of them now revoked, and the
one of the certificate it records. -/
theorem row_of_index
    {tx : Tx}
    (hdb : tx.run db = some db')
    {row' : CertRow}
    (hrow' : row' ∈ db'.certIndex) :
    (∃ row ∈ db.certIndex,
      row'.fingerprint = row.fingerprint ∧ row'.kind = row.kind ∧ row'.serial = row.serial ∧
        row'.notBefore = row.notBefore ∧ row'.notAfter = row.notAfter) ∨
    (∃ cert issuer profile purpose id, tx = .issue cert issuer profile purpose id ∧
      row' = indexRow cert (.ee profile) purpose) ∨
    (∃ next cert key lock, tx = .generation next cert key lock ∧
      row' = indexRow cert (.ca .signing) next.purpose) := by
  have hmarked : ∀ fp reason at_, row' ∈ Ca.markRevoked db.certIndex fp reason at_ →
      ∃ row ∈ db.certIndex,
        row'.fingerprint = row.fingerprint ∧ row'.kind = row.kind ∧ row'.serial = row.serial ∧
          row'.notBefore = row.notBefore ∧ row'.notAfter = row.notAfter := by
    intro fp reason at_ hmem
    obtain ⟨row, hrow, ⟨_, rfl⟩ | ⟨_, rfl⟩⟩ := mem_updateWhere.mp hmem
    · exact ⟨row, hrow, rfl, rfl, rfl, rfl, rfl⟩
    · exact ⟨_, hrow, rfl, rfl, rfl, rfl, rfl⟩
  rw [run_certIndex hdb] at hrow'
  cases tx with
  | issue cert issuer profile purpose id =>
      rcases mem_indexCert hrow' with hold | rfl
      · exact Or.inl ⟨row', hold, rfl, rfl, rfl, rfl, rfl⟩
      · exact Or.inr (Or.inl ⟨cert, issuer, profile, purpose, id, rfl, rfl⟩)
  | generation next cert key lock =>
      rcases mem_indexCert hrow' with hold | rfl
      · exact Or.inl ⟨row', hold, rfl, rfl, rfl, rfl, rfl⟩
      · exact Or.inr (Or.inr ⟨next, cert, key, lock, rfl, rfl⟩)
  | revoke fp reason at_ => exact Or.inl (hmarked fp reason at_ hrow')
  | revokeCa victim cert reason at_ => exact Or.inl (hmarked cert reason at_ hrow')
  | _ => exact Or.inl ⟨row', hrow', rfl, rfl, rfl, rfl, rfl⟩

/-- Only transactions change the index. -/
theorem apply_certIndex
    {p : Pid}
    {s : Store}
    {e : Event}
    (hne : ∀ tx, e ≠ .commit tx) :
    (s.apply p e).db.certIndex = s.db.certIndex := by
  cases e with
  | key use => rw [(apply_key_db p use s).1]
  | publish slug issuer file => cases file <;> rfl
  | commit tx => exact absurd rfl (hne tx)
  | _ => rfl

/-- The ceremony gives every CA certificate its own serial, and issues no leaf. -/
theorem Initialised.indexed
    {s : Store}
    (h : Initialised s) :
    Indexed s.db ∧ ∀ row ∈ s.db.certIndex, row.isLeaf = false := by
  obtain ⟨config, rootCert, rootKey, minted, hs⟩ := h.ceremony
  have hrows : ∀ row ∈ s.db.certIndex, row.Faithful ∧ row.isLeaf = false := by
    rw [hs.db]
    intro row hrow
    rcases List.mem_cons.mp hrow with rfl | hrow
    · exact ⟨indexRow_faithful _ _ _, rfl⟩
    · obtain ⟨m, _, rfl⟩ := List.mem_map.mp hrow
      exact ⟨indexRow_faithful _ _ _, rfl⟩
  refine ⟨⟨fun row hrow => (hrows row hrow).1, ?_⟩, fun row hrow => (hrows row hrow).2⟩
  rw [hs.db]
  simpa [UniqueKey, ceremonyDb, indexRow, Function.comp_def] using hs.serials

end Index

end Ca
end Yca
