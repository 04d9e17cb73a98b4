import Mathlib.Data.List.MinMax
import Mathlib.Data.String.Basic
import Yca.Ca.Lineage
import Yca.Ca.Signatures
import Yca.Ca.Succession
import Yca.Core.Walk

/-!
# The issuers above a certificate

`issuers_above` looks a certificate's authority key id up among the subject key ids
of `cert_index`, loads what it finds, and goes on from there until it is at a
self-signed certificate, at one it has seen, or at an identifier nobody has.

The walk ends over every index.  Above a leaf it finds the generation that issued it
and nothing else, as long as no two CAs, and no CA and leaf, share a key.
-/

namespace Yca
namespace Ca

open Yca.Core

/-- What the walk reads: the fingerprints of `cert_index` with their `ski`, and
Botan's `certificates`.  A fingerprint stands for its certificate, and its text
orders the rows.  A certificate without an identifier has none. -/
structure IssuerTables (γ κ : Type) where
  skiOf : γ → Option κ
  akiOf : γ → Option κ
  fingerprint : γ → String
  certIndex : List (γ × Option κ)
  certificates : List γ

namespace IssuerTables

variable {γ κ : Type} [DecidableEq κ]

/-- The rows are as `index_cert` writes them. -/
def Faithful (x : IssuerTables γ κ) : Prop :=
  ∀ r ∈ x.certIndex, r.2 = x.skiOf r.1

/-- The first fingerprint of a subject key id, in the order of their texts. -/
def firstBySki (x : IssuerTables γ κ) (ski : κ) : Option γ :=
  ((x.certIndex.filter fun r => r.2 == some ski).map Prod.fst).argmin x.fingerprint

/-- The fingerprint of the issuer; there is none above a self-signed certificate. -/
def issuerFp (x : IssuerTables γ κ) (cert : γ) : Option γ :=
  match x.akiOf cert with
  | none => none
  | some aki => if some aki = x.skiOf cert then none else x.firstBySki aki

variable {x : IssuerTables γ κ}

theorem mem_of_firstBySki
    {ski : κ}
    {fp : γ}
    (h : x.firstBySki ski = some fp) :
    (fp, some ski) ∈ x.certIndex := by
  have hmem : fp ∈ (x.certIndex.filter fun r => r.2 == some ski).map Prod.fst :=
    List.argmin_mem h
  obtain ⟨r, hr, rfl⟩ := List.mem_map.mp hmem
  obtain ⟨hrow, hski⟩ := List.mem_filter.mp hr
  rw [← beq_iff_eq.mp hski]
  exact hrow

/-- Where one certificate has the subject key id, the query finds it. -/
theorem firstBySki_eq
    {ski : κ}
    {fp : γ}
    (hrow : (fp, some ski) ∈ x.certIndex)
    (honly : ∀ r ∈ x.certIndex, r.2 = some ski → r.1 = fp) :
    x.firstBySki ski = some fp := by
  cases h : x.firstBySki ski with
  | none =>
      have hnil := List.argmin_eq_none.mp h
      have hmem : fp ∈ (x.certIndex.filter fun r => r.2 == some ski).map Prod.fst :=
        List.mem_map.mpr ⟨_, List.mem_filter.mpr ⟨hrow, by simp⟩, rfl⟩
      rw [hnil] at hmem
      exact absurd hmem List.not_mem_nil
  | some other =>
      have hother : other = fp := honly _ (mem_of_firstBySki h) rfl
      rw [hother]

theorem issuerFp_eq_some
    {cert fp : γ}
    (h : x.issuerFp cert = some fp) :
    ∃ aki, x.akiOf cert = some aki ∧ x.skiOf cert ≠ some aki ∧ x.firstBySki aki = some fp := by
  unfold issuerFp at h
  split at h
  · simp at h
  · rename_i aki haki
    split_ifs at h with hself
    exact ⟨aki, haki, Ne.symm hself, h⟩

variable [DecidableEq γ]

/-- `load_cert` of an issuer that is not self-signed. -/
def issuerCert (x : IssuerTables γ κ) (fp : γ) : Option γ :=
  if fp ∈ x.certificates ∧ x.skiOf fp ≠ x.akiOf fp then some fp else none

/-- `issuers_above`, with fuel for its loop. -/
def issuersAbove (x : IssuerTables γ κ) (fuel : Nat) (cert : γ) : Option (List γ) :=
  walk x.issuerFp x.issuerCert fuel [cert] cert

theorem issuerCert_eq_some
    {fp cert : γ}
    (h : x.issuerCert fp = some cert) :
    cert = fp ∧ fp ∈ x.certificates ∧ x.skiOf fp ≠ x.akiOf fp := by
  unfold issuerCert at h
  split_ifs at h with hload
  exact ⟨(Option.some.inj h).symm, hload.1, hload.2⟩

/-- The loop ends over every index. -/
theorem issuersAbove_terminates (x : IssuerTables γ κ) (cert : γ) :
    ∃ out, ∀ fuel, x.certIndex.length < fuel → x.issuersAbove fuel cert = some out := by
  have hnames : ∀ a fp, x.issuerFp a = some fp → fp ∈ x.certIndex.map Prod.fst := by
    intro a fp h
    obtain ⟨aki, _, _, hfirst⟩ := issuerFp_eq_some h
    exact List.mem_map_of_mem (mem_of_firstBySki hfirst)
  have hleft : (unseen (x.certIndex.map Prod.fst) [cert]).length ≤ x.certIndex.length := by
    have hle := List.length_filter_le (fun fp => decide (fp ∉ [cert]))
      (x.certIndex.map Prod.fst)
    rw [List.length_map] at hle
    exact hle
  obtain ⟨out, hout⟩ := Option.isSome_iff_exists.mp
    (walk_isSome hnames (x.certIndex.length + 1) [cert] cert (by omega) :
      (x.issuersAbove (x.certIndex.length + 1) cert).isSome = true)
  exact ⟨out, fun fuel hfuel => walk_mono hout (by omega)⟩

/-- What the walk returns: distinct certificates, none of them self-signed. -/
theorem issuersAbove_distinct
    {fuel : Nat}
    {cert : γ}
    {out : List γ}
    (h : x.issuersAbove fuel cert = some out) :
    out.Nodup ∧ cert ∉ out ∧ ∀ c ∈ out, x.skiOf c ≠ x.akiOf c := by
  have hcalled : ∀ fp c, x.issuerCert fp = some c → id c = fp :=
    fun fp c hc => (issuerCert_eq_some hc).1
  obtain ⟨hnodup, hnew⟩ := walk_fresh hcalled h
  refine ⟨by simpa using hnodup, ?_, ?_⟩
  · intro hmem
    exact (hnew cert hmem).1 List.mem_cons_self
  · intro c hc
    exact (issuerCert_eq_some (hnew c hc).2).2.2

/-- Each has the subject key id that the one before it names as its authority's. -/
theorem issuersAbove_isChain
    (hfaithful : x.Faithful)
    {fuel : Nat}
    {cert : γ}
    {out : List γ}
    (h : x.issuersAbove fuel cert = some out) :
    List.IsChain (fun a b => ∃ id, x.akiOf a = some id ∧ x.skiOf b = some id) (cert :: out) := by
  refine List.IsChain.imp ?_ (walk_isChain h)
  rintro a b ⟨fp, hfp, hcert⟩
  obtain ⟨aki, haki, _, hfirst⟩ := issuerFp_eq_some hfp
  obtain ⟨rfl, _, _⟩ := issuerCert_eq_some hcert
  exact ⟨aki, haki, (hfaithful _ (mem_of_firstBySki hfirst)).symm⟩

end IssuerTables

section Invariant

/-- The tables of a store.  `text` is the text of a fingerprint. -/
def Db.issuerTables (db : Db) (text : Cert → String) : IssuerTables Cert Key where
  skiOf cert := some cert.ski
  akiOf cert := some cert.aki
  fingerprint := text
  certIndex := db.certIndex.map fun row => (row.fingerprint, some row.ski)
  certificates := db.certificates.map StoredCert.cert

/-- No two CAs share a key, and no leaf has the key of a CA. -/
structure KeysApart (db : Db) : Prop where
  cas : UniqueKey (fun row : CertRow => row.fingerprint.publicKey)
    (db.certIndex.filter fun row => !row.isLeaf)
  leaves : ∀ leaf ∈ db.certIndex, leaf.isLeaf = true →
    ∀ ca ∈ db.certIndex, ca.isLeaf = false →
      leaf.fingerprint.publicKey ≠ ca.fingerprint.publicKey

/-- A leaf was recorded, signed under this certificate. -/
def IssuedUnder (s : Store) (leaf issuer : Cert) : Prop :=
  ∃ profile purpose id, Event.commit (.issue leaf issuer profile purpose id) ∈ s.log

/-- The certificate of an issuing generation. -/
def Db.OfGeneration (db : Db) (cert : Cert) : Prop :=
  ∃ g ∈ db.caIndex, g.kind = .signing ∧
    ∃ row ∈ db.certIndex, row.records g ∧ row.fingerprint = cert

/-- The root's certificate is self-signed, and every other CA certificate names its
key. -/
structure Anchored (s : Store) (root : Cert) : Prop where
  recorded : s.db.RecordsCa root
  aki : root.aki = root.ski
  pem : s.pem s.db.root.slug = some root
  subject : root.subjectCn = s.db.root.cn
  files : ∀ slug cert, s.pem slug = some cert → cert.aki = root.ski ∧ cert.ski = cert.publicKey
  cas : ∀ row ∈ s.db.certIndex, row.isLeaf = false → row.fingerprint.aki = root.ski

/-- What the walk relies on. -/
structure Rooted (s : Store) : Prop where
  lineal : Lineal s
  anchored : ∃ root, Anchored s root
  faithful : ∀ row ∈ s.db.certIndex, row.Faithful
  keyIds : ∀ row ∈ s.db.certIndex, row.fingerprint.ski = row.fingerprint.publicKey
  kept : ∀ row ∈ s.db.certIndex, Kept s.db.certificates row.fingerprint
  /-- A leaf names the key of the certificate it was signed under, and that is in
  the file of an issuing generation. -/
  issued : ∀ leaf issuer, IssuedUnder s leaf issuer →
    leaf.aki = issuer.ski ∧ ∃ g ∈ s.db.caIndex, g.kind = .signing ∧ s.pem g.slug = some issuer
  leaves : ∀ row ∈ s.db.certIndex, row.isLeaf = true → ∃ issuer, IssuedUnder s row.fingerprint issuer

variable {s s' : Store} {r : Rules} {req : Request}

theorem IssuedUnder.apply
    {leaf issuer : Cert}
    (h : IssuedUnder s leaf issuer)
    (p : Pid)
    (e : Event) :
    IssuedUnder (s.apply p e) leaf issuer := by
  obtain ⟨profile, purpose, id, hmem⟩ := h
  exact ⟨profile, purpose, id, mem_apply_log p e s hmem⟩

theorem issuedUnder_apply
    {p : Pid}
    {e : Event}
    {leaf issuer : Cert}
    (h : IssuedUnder (s.apply p e) leaf issuer) :
    IssuedUnder s leaf issuer ∨
      ∃ profile purpose id, e = .commit (.issue leaf issuer profile purpose id) := by
  obtain ⟨profile, purpose, id, hmem⟩ := h
  rcases mem_log_apply hmem with hold | rfl
  · exact Or.inl ⟨profile, purpose, id, hold⟩
  · exact Or.inr ⟨profile, purpose, id, rfl⟩

/-- The invariant is about the database, the certificate files and the leaves on
record. -/
theorem Rooted.frame
    (h : Rooted s)
    (hdb : s'.db = s.db)
    (hpem : s'.pem = s.pem)
    (hissued : ∀ leaf issuer, IssuedUnder s' leaf issuer ↔ IssuedUnder s leaf issuer) :
    Rooted s' := by
  obtain ⟨root, hroot⟩ := h.anchored
  refine ⟨h.lineal.frame hdb hpem, ⟨root, ?_⟩, ?_, ?_, ?_, ?_, ?_⟩
  · refine ⟨by rw [hdb]; exact hroot.recorded, hroot.aki, by rw [hdb, hpem]; exact hroot.pem,
      by rw [hdb]; exact hroot.subject, by rw [hpem]; exact hroot.files, ?_⟩
    rw [hdb]
    exact hroot.cas
  · rw [hdb]
    exact h.faithful
  · rw [hdb]
    exact h.keyIds
  · rw [hdb]
    exact h.kept
  · intro leaf issuer hleaf
    rw [hdb, hpem]
    exact h.issued leaf issuer ((hissued leaf issuer).mp hleaf)
  · rw [hdb]
    intro row hrow hleaf
    obtain ⟨issuer, hissuer⟩ := h.leaves row hrow hleaf
    exact ⟨issuer, (hissued _ _).mpr hissuer⟩

/-- What a ceremony publishes names the key of its issuer. -/
theorem RenewAccount.keyIds
    {purpose newCn slug : String}
    {issuer cert : Cert}
    {read t : Store}
    (h : RenewAccount (Undisturbed r) 0 purpose newCn read t (.publish slug issuer (.pem cert))) :
    cert.aki = issuer.ski ∧ cert.ski = cert.publicKey := by
  obtain ⟨_, _, _, _, _, _, _, root, cert', hcast, ⟨_, hevent⟩ | ⟨_, _, _, _, _, _, _, _, hevent⟩⟩ := h
  · obtain ⟨_, rfl, hfile⟩ := Event.publish.inj hevent
    obtain rfl := Artifact.pem.inj hfile
    exact ⟨hcast.aki, hcast.keyId⟩
  · simp at hevent

/-- What an issuing call records has the key id of its key. -/
theorem IssueAccount.keyId
    {profile profile' : Profile}
    {cn purpose : String}
    {valid : Option Nat}
    {csrKey : Option Key}
    {enrolled : Option (String × String)}
    {id : Option String}
    {cert issuer : Cert}
    {t : Store}
    (h : IssueAccount (Undisturbed r) 0 profile cn valid csrKey enrolled t
      (.issue cert issuer profile' purpose id)) :
    cert.ski = cert.publicKey := by
  obtain ⟨_, _, _, _, _, _, _, _, htx, hissued⟩ := h
  obtain ⟨rfl, _, _, _, _⟩ := Tx.issue.inj htx
  exact hissued.keyId

/-- A ceremony publishes the certificate of the next generation. -/
theorem Rooted.published
    {ca : SigningCa}
    {newCn : String}
    {issuer cert : Cert}
    (h : Rooted s)
    (hca : ca ∈ s.db.purposes)
    (hissuer : s.pem s.db.root.slug = some issuer)
    (haki : cert.aki = issuer.ski)
    (hkeyId : cert.ski = cert.publicKey)
    (hlineal : Lineal (s.apply 0 (.publish (s.db.successor ca newCn).slug issuer (.pem cert)))) :
    Rooted (s.apply 0 (.publish (s.db.successor ca newCn).slug issuer (.pem cert))) := by
  have hkept : ∀ g ∈ s.db.caIndex,
      (s.apply 0 (.publish (s.db.successor ca newCn).slug issuer (.pem cert))).pem g.slug =
        s.pem g.slug := by
    intro g hg
    exact Function.update_of_ne (h.lineal.successor_slug hca newCn hg) _ _
  obtain ⟨root, hroot⟩ := h.anchored
  obtain rfl : issuer = root := Option.some.inj (hissuer.symm.trans hroot.pem)
  refine ⟨hlineal, ⟨issuer, hroot.recorded, hroot.aki, ?_, hroot.subject, ?_, hroot.cas⟩,
    h.faithful, h.keyIds, h.kept, ?_, ?_⟩
  · exact (hkept _ h.lineal.root_mem).trans hroot.pem
  · intro slug file hfile
    have hfile : Function.update s.pem (s.db.successor ca newCn).slug (some cert) slug =
        some file := hfile
    by_cases hslug : slug = (s.db.successor ca newCn).slug
    · rw [hslug, Function.update_self] at hfile
      rw [← Option.some.inj hfile]
      exact ⟨haki, hkeyId⟩
    · rw [Function.update_of_ne hslug] at hfile
      exact hroot.files slug file hfile
  · intro leaf other hother
    obtain hold | ⟨_, _, _, hevent⟩ := issuedUnder_apply hother
    · obtain ⟨hleaf, g, hg, hkind, hpem⟩ := h.issued leaf other hold
      exact ⟨hleaf, g, hg, hkind, (hkept g hg).trans hpem⟩
    · simp at hevent
  · intro row hrow hleaf
    obtain ⟨other, hother⟩ := h.leaves row hrow hleaf
    exact ⟨other, hother.apply _ _⟩

end Invariant

section Steps

variable {s : Store} {r : Rules} {req : Request} {tx : Tx} {db : Db}

/-- Transactions leave the name of the root. -/
theorem run_root
    (hdb : tx.run s.db = some db) :
    db.root = s.db.root := by
  cases tx with
  | generation next cert key lock =>
      obtain ⟨_, _, rfl⟩ := run_generation hdb
      rfl
  | enroll id created =>
      obtain ⟨_, rfl⟩ := run_enroll hdb
      rfl
  | _ => rw [← Option.some.inj hdb]

/-- The root stays on record: no leaf has its certificate. -/
theorem Rooted.recordsRoot
    {root : Cert}
    (h : Rooted s)
    (hroot : Anchored s root)
    (hdb : tx.run s.db = some db)
    (hleaves : ∀ row ∈ db.certIndex, row.isLeaf = true →
      row.fingerprint.issuerCn ≠ s.db.root.cn) :
    db.RecordsCa root := by
  have hindex := run_certIndex hdb
  cases tx with
  | issue cert issuer profile purpose id =>
      obtain ⟨row, hrow, hleaf, hfp⟩ := hroot.recorded
      have hother : row.fingerprint ≠ cert := by
        intro heq
        have hmem : indexRow cert (.ee profile) purpose ∈ db.certIndex := by
          rw [hindex]
          exact self_mem_indexCert _ _ _ _
        refine hleaves _ hmem rfl ?_
        show cert.issuerCn = s.db.root.cn
        rw [← heq, hfp]
        exact h.lineal.files _ _ hroot.pem
      refine ⟨row, ?_, hleaf, hfp⟩
      rw [hindex]
      exact mem_indexCert_of_ne hrow hother
  | revoke fp reason at_ => exact keepsCas_of_markRevoked hindex _ hroot.recorded
  | revokeCa victim cert reason at_ => exact keepsCas_of_markRevoked hindex _ hroot.recorded
  | generation next cert key lock => exact keepsCas_of_indexCert hindex (Or.inl rfl) _ hroot.recorded
  | _ => exact keepsCas_of_eq hindex _ hroot.recorded

/-- What the account of a call says of the certificate it records. -/
structure RecordedWell (s : Store) (root : Cert) (row : CertRow) (tx : Tx) : Prop where
  recorded : row.fingerprint ∈ tx.recorded
  keyId : row.fingerprint.ski = row.fingerprint.publicKey
  ca : row.isLeaf = false → row.fingerprint.aki = root.ski
  leaf : row.isLeaf = true → ∃ issuer profile purpose id,
    tx = .issue row.fingerprint issuer profile purpose id

theorem row_of_account
    {root : Cert}
    (hroot : Anchored s root)
    (hreq : req.declares = false)
    (hdb : tx.run s.db = some db)
    (haccount : Account (Undisturbed r) 0 (Solo Rooted) req s (.commit tx))
    {row : CertRow}
    (hrow : row ∈ db.certIndex) :
    (∃ row₀ ∈ s.db.certIndex, row.fingerprint = row₀.fingerprint ∧ row.kind = row₀.kind) ∨
      RecordedWell s root row tx := by
  have hcases := commit_cases haccount
  rcases row_of_index hdb hrow with
    ⟨row₀, hrow₀, hfp, hkind, _⟩ | ⟨cert, issuer, profile, purpose, id, rfl, rfl⟩ |
    ⟨next, cert, key, lock, rfl, rfl⟩
  · exact Or.inl ⟨row₀, hrow₀, hfp, hkind⟩
  · right
    obtain ⟨_, _, _, _, _, _, hissue⟩ := hcases
    exact ⟨rfl, hissue.keyId, by simp [CertRow.isLeaf, indexRow],
      fun _ => ⟨issuer, profile, purpose, id, rfl⟩⟩
  · right
    obtain ⟨read, ⟨file, purpose, rfl, _⟩ | ⟨purpose, newCn, rfl, hrenew⟩⟩ := hcases
    · simp [Request.declares] at hreq
    · obtain ⟨ca, _, _, _, cert', _, _, ⟨_, htx⟩ | ⟨key', hfile, _, htx⟩⟩ := hrenew.alone
      · simp at htx
      · obtain ⟨rfl, rfl, rfl, rfl⟩ := Tx.generation.inj (Event.commit.inj htx)
        obtain ⟨haki, hkeyId⟩ := hroot.files _ _ hfile
        exact ⟨rfl, hkeyId, fun _ => haki, by simp [CertRow.isLeaf, indexRow]⟩

/-- A new leaf is signed under the certificate of the active generation. -/
theorem Rooted.issuer
    {leaf issuer : Cert}
    {profile : Profile}
    {purpose : String}
    {id : Option String}
    (h : Rooted s)
    (haccount : Account (Undisturbed r) 0 (Solo Rooted) req s
      (.commit (.issue leaf issuer profile purpose id))) :
    leaf.aki = issuer.ski ∧ ∃ g ∈ s.db.caIndex, g.kind = .signing ∧ s.pem g.slug = some issuer := by
  obtain ⟨_, _, _, _, _, _, hissue⟩ := commit_cases haccount
  obtain ⟨ca, cert, issuer', hprofile, hpem, _, haki, htx⟩ := hissue.alone
  obtain ⟨rfl, rfl, rfl, _, _⟩ := Tx.issue.inj htx
  obtain ⟨g, hg, _, hkind, _, hactive, _⟩ := h.lineal.active (List.mem_of_find?_eq_some hprofile)
  rw [hactive] at hpem
  exact ⟨haki, g, hg, hkind, hpem⟩

theorem Rooted.commit
    (h : Rooted s)
    (hreq : req.declares = false)
    (hdb : tx.run s.db = some db)
    (haccount : Account (Undisturbed r) 0 (Solo Rooted) req s (.commit tx))
    (hlineal : Lineal (s.apply 0 (.commit tx))) :
    Rooted (s.apply 0 (.commit tx)) := by
  obtain ⟨root, hroot⟩ := h.anchored
  have happly := apply_commit 0 hdb
  have hlog : Event.commit tx ∈ (s.apply 0 (.commit tx)).log := mem_apply_self 0 (by simp) s
  have hmono : ∀ leaf issuer, IssuedUnder s leaf issuer →
      IssuedUnder (s.apply 0 (.commit tx)) leaf issuer :=
    fun leaf issuer hissued => hissued.apply _ _
  have hback : ∀ leaf issuer, IssuedUnder (s.apply 0 (.commit tx)) leaf issuer → _ :=
    fun leaf issuer => issuedUnder_apply
  rw [happly] at hlineal hlog hmono hback ⊢
  have hrows : ∀ row ∈ db.certIndex, _ :=
    fun row hrow => row_of_account hroot hreq hdb haccount hrow
  refine ⟨hlineal, ⟨root, ?_⟩, faithful_run hdb h.faithful, ?_, ?_, ?_, ?_⟩
  · refine ⟨h.recordsRoot hroot hdb ?_, hroot.aki, ?_, ?_, hroot.files, ?_⟩
    · rw [← run_root hdb]
      exact hlineal.leaves
    · rw [run_root hdb]
      exact hroot.pem
    · rw [run_root hdb]
      exact hroot.subject
    · intro row hrow hleaf
      rcases hrows row hrow with ⟨row₀, hrow₀, hfp, hkind⟩ | hnew
      · rw [hfp]
        exact hroot.cas row₀ hrow₀ (by simpa only [CertRow.isLeaf, hkind] using hleaf)
      · exact hnew.ca hleaf
  · intro row hrow
    rcases hrows row hrow with ⟨row₀, hrow₀, hfp, _⟩ | hnew
    · rw [hfp]
      exact h.keyIds row₀ hrow₀
    · exact hnew.keyId
  · intro row hrow
    rcases hrows row hrow with ⟨row₀, hrow₀, hfp, _⟩ | hnew
    · rw [hfp]
      exact kept_run hdb (Or.inl (h.kept row₀ hrow₀))
    · exact kept_run hdb (Or.inr hnew.recorded)
  · intro leaf issuer hleaf
    have hissuer : leaf.aki = issuer.ski ∧
        ∃ g ∈ s.db.caIndex, g.kind = .signing ∧ s.pem g.slug = some issuer := by
      rcases hback leaf issuer hleaf with hold | ⟨profile, purpose, id, hevent⟩
      · exact h.issued leaf issuer hold
      · obtain rfl := Event.commit.inj hevent
        exact h.issuer haccount
    obtain ⟨haki, g, hg, hkind, hpem⟩ := hissuer
    obtain ⟨g', hg', hsame, hkind'⟩ := run_extends hdb g hg
    exact ⟨haki, g', hg', hkind'.trans hkind, (congrArg s.pem (congrArg CaGen.slug hsame)).trans hpem⟩
  · intro row hrow hleaf
    rcases hrows row hrow with ⟨row₀, hrow₀, hfp, hkind⟩ | hnew
    · obtain ⟨issuer, hissuer⟩ :=
        h.leaves row₀ hrow₀ (by simpa only [CertRow.isLeaf, hkind] using hleaf)
      exact ⟨issuer, hfp ▸ hmono _ _ hissuer⟩
    · obtain ⟨issuer, profile, purpose, id, rfl⟩ := hnew.leaf hleaf
      exact ⟨issuer, profile, purpose, id, hlog⟩

theorem Rooted.event
    {e : Event}
    (h : Rooted s)
    (hreq : req.declares = false)
    (hmeets : Meets r 0 s e)
    (haccount : Account (Undisturbed r) 0 (Solo Rooted) req s e) :
    Rooted (s.apply 0 e) := by
  have hlineal : Lineal (s.apply 0 e) :=
    h.lineal.event hreq hmeets
      (haccount.mono fun t (ht : Solo Rooted t) => (⟨ht.lock, ht.inv.lineal⟩ : Solo Lineal t))
  -- what remains of an event that records no leaf
  have hquiet : (s.apply 0 e).db = s.db → (s.apply 0 e).pem = s.pem →
      (∀ tx, e ≠ .commit tx) → Rooted (s.apply 0 e) := by
    intro hdb hpem hother
    refine h.frame hdb hpem ?_
    intro leaf issuer
    refine ⟨?_, fun hissued => hissued.apply _ _⟩
    intro hissued
    rcases issuedUnder_apply hissued with hold | ⟨_, _, _, hevent⟩
    · exact hold
    · exact absurd hevent (hother _)
  cases e with
  | key use =>
      obtain ⟨hdb, _, hpem, _⟩ := apply_key_db 0 use s
      exact hquiet hdb hpem (by simp)
  | backfill row =>
      refine (Lineal.no_backfill hreq (haccount.mono ?_)).elim
      exact fun t ht => ⟨ht.lock, ht.inv.lineal⟩
  | publish slug issuer file =>
      cases file with
      | pem cert =>
          obtain ⟨read, ⟨file, purpose, rfl, _⟩ | ⟨purpose, newCn, rfl, hrenew⟩⟩ :=
            publish_cases haccount
          · simp [Request.declares] at hreq
          · obtain ⟨haki, hkeyId⟩ := hrenew.keyIds
            obtain ⟨ca, hmem, _, root, cert', _, _, ⟨hpem, hevent⟩ | ⟨_, _, _, hevent⟩⟩ :=
              hrenew.alone
            · obtain ⟨rfl, rfl, hfile⟩ := Event.publish.inj hevent
              obtain rfl := Artifact.pem.inj hfile
              rw [h.lineal.activeCa_root] at hpem
              exact h.published hmem hpem haki hkeyId hlineal
            · simp at hevent
      | _ => exact hquiet rfl rfl (by simp)
  | commit tx =>
      obtain ⟨db, hdb⟩ := Option.isSome_iff_exists.mp hmeets.2.1
      exact h.commit hreq hdb haccount hlineal
  | _ => exact hquiet rfl rfl (by simp)

/-- The ceremony's certificates hang together. -/
theorem Founded.rooted
    (h : Founded s) :
    Rooted s := by
  obtain ⟨config, rootCert, rootKey, minted, _, hs⟩ := h.ceremony
  obtain ⟨rootSerial, rootNow, hrootCert⟩ := hs.root
  have hconfig : s.db.root = config.root := by
    rw [hs.db]
    rfl
  have hcert : ∀ m ∈ minted, m.cert.aki = rootCert.ski ∧ m.cert.ski = m.cert.publicKey := by
    intro m hm
    obtain ⟨_, _, hcert⟩ := hs.certs m hm
    rw [hcert]
    exact ⟨rfl, rfl⟩
  have hself : rootCert.aki = rootCert.ski ∧ rootCert.ski = rootCert.publicKey := by
    rw [hrootCert]
    exact ⟨rfl, rfl⟩
  have hrows : ∀ row ∈ s.db.certIndex, row.isLeaf = false ∧
      row.fingerprint.aki = rootCert.ski ∧ row.fingerprint.ski = row.fingerprint.publicKey ∧
      Kept s.db.certificates row.fingerprint := by
    rw [hs.db]
    intro row hrow
    rcases List.mem_cons.mp hrow with rfl | hrow
    · exact ⟨rfl, hself.1, hself.2, _, List.mem_cons_self, rfl⟩
    · obtain ⟨m, hm, rfl⟩ := List.mem_map.mp hrow
      exact ⟨rfl, (hcert m hm).1, (hcert m hm).2, _,
        List.mem_cons_of_mem _ (List.mem_map_of_mem hm), rfl⟩
  refine ⟨h.lineal, ⟨rootCert, ?_⟩, h.initialised.indexed.1.faithful,
    fun row hrow => (hrows row hrow).2.2.1, fun row hrow => (hrows row hrow).2.2.2, ?_, ?_⟩
  · refine ⟨?_, hself.1, ?_, ?_, ?_, fun row hrow _ => (hrows row hrow).2.1⟩
    · rw [hs.db]
      exact ⟨_, List.mem_cons_self, rfl, rfl⟩
    · rw [hconfig]
      exact hs.rootPem
    · rw [hconfig, hrootCert]
      rfl
    · intro slug cert hfile
      rcases hs.files slug cert hfile with rfl | ⟨m, hm, rfl⟩
      · exact hself
      · exact hcert m hm
  · rintro leaf issuer ⟨profile, purpose, id, hmem⟩
    rcases hs.log _ hmem with ⟨_, hevent, _⟩ | ⟨_, _, _, hevent, _⟩
    · simp at hevent
    · simp at hevent
  · intro row hrow hleaf
    rw [(hrows row hrow).1] at hleaf
    simp at hleaf

end Steps

section Results

variable {s : Store}

/-- The key id of a CA is nobody else's. -/
theorem Rooted.row_eq
    (h : Rooted s)
    (hkeys : KeysApart s.db)
    {row ca : CertRow}
    (hrow : row ∈ s.db.certIndex)
    (hca : ca ∈ s.db.certIndex)
    (hcaLeaf : ca.isLeaf = false)
    (hski : row.fingerprint.ski = ca.fingerprint.ski) :
    row = ca := by
  have hkey : row.fingerprint.publicKey = ca.fingerprint.publicKey := by
    rw [← h.keyIds row hrow, ← h.keyIds ca hca, hski]
  cases hleaf : row.isLeaf with
  | true => exact absurd hkey (hkeys.leaves row hrow hleaf ca hca hcaLeaf)
  | false =>
      have hboth : ∀ r ∈ s.db.certIndex, r.isLeaf = false →
          r ∈ s.db.certIndex.filter fun r => !r.isLeaf :=
        fun r hr hrLeaf => List.mem_filter.mpr ⟨hr, by simpa using hrLeaf⟩
      exact hkeys.cas.eq (hboth row hrow hleaf) (hboth ca hca hcaLeaf) hkey

/-- The query finds a CA by its key id. -/
theorem Rooted.firstBySki
    (h : Rooted s)
    (hkeys : KeysApart s.db)
    (text : Cert → String)
    {ca : CertRow}
    (hca : ca ∈ s.db.certIndex)
    (hcaLeaf : ca.isLeaf = false) :
    (s.db.issuerTables text).firstBySki ca.fingerprint.ski = some ca.fingerprint := by
  refine IssuerTables.firstBySki_eq ?_ ?_
  · exact List.mem_map.mpr ⟨ca, hca, by rw [(h.faithful ca hca).ski]⟩
  · intro pair hpair hski
    obtain ⟨row, hrow, rfl⟩ := List.mem_map.mp hpair
    have hski : row.ski = ca.fingerprint.ski := Option.some.inj hski
    rw [(h.faithful row hrow).ski] at hski
    show row.fingerprint = ca.fingerprint
    rw [h.row_eq hkeys hrow hca hcaLeaf hski]

/-- Above a leaf is the generation that issued it, and above that the root, which the
walk leaves out. -/
theorem Rooted.issuersAbove
    (h : Rooted s)
    (hkeys : KeysApart s.db)
    (text : Cert → String)
    {leaf : CertRow}
    (hleaf : leaf ∈ s.db.certIndex)
    (hisLeaf : leaf.isLeaf = true)
    {issuer : Cert}
    (hissued : IssuedUnder s leaf.fingerprint issuer) :
    s.db.OfGeneration issuer ∧
      ∀ fuel, s.db.certIndex.length < fuel →
        (s.db.issuerTables text).issuersAbove fuel leaf.fingerprint = some [issuer] := by
  obtain ⟨haki, g, hg, hkind, hpem⟩ := h.issued _ _ hissued
  obtain ⟨ca, hca, hof, hfile, _⟩ := h.lineal.recorded g hg hkind
  obtain rfl : issuer = ca.fingerprint := Option.some.inj (hpem.symm.trans hfile)
  refine ⟨⟨g, hg, hkind, ca, hca, hof, rfl⟩, ?_⟩
  obtain ⟨root, hroot⟩ := h.anchored
  obtain ⟨top, htop, htopLeaf, rfl⟩ := hroot.recorded
  have hcaLeaf := records_leaf hof
  -- the generation is not the root, which has a name of its own
  have hapart : ca ≠ top := by
    rintro rfl
    have hname : g.cn = s.db.loadConfig.rootRow.cn := by
      rw [← hof.1, (h.lineal.cas ca hca hcaLeaf).1, hroot.subject]
      rfl
    rw [h.lineal.cns.eq hg h.lineal.root_mem hname] at hkind
    simp [Config.rootRow] at hkind
  have hcaAki : ca.fingerprint.aki = top.fingerprint.ski := hroot.cas ca hca hcaLeaf
  have hski : ca.fingerprint.ski ≠ top.fingerprint.ski :=
    fun heq => hapart (h.row_eq hkeys hca htop htopLeaf heq)
  have hleafSki : leaf.fingerprint.ski ≠ ca.fingerprint.ski := by
    intro heq
    rw [h.row_eq hkeys hleaf hca hcaLeaf heq, hcaLeaf] at hisLeaf
    simp at hisLeaf
  have hfirst : (s.db.issuerTables text).issuerFp leaf.fingerprint = some ca.fingerprint := by
    have hne : ¬ (some leaf.fingerprint.aki = some leaf.fingerprint.ski) := by
      rw [haki]
      exact fun heq => hleafSki (Option.some.inj heq).symm
    show (if some leaf.fingerprint.aki = some leaf.fingerprint.ski then none
      else (s.db.issuerTables text).firstBySki leaf.fingerprint.aki) = _
    rw [if_neg hne, haki]
    exact h.firstBySki hkeys text hca hcaLeaf
  have hsecond : (s.db.issuerTables text).issuerFp ca.fingerprint = some top.fingerprint := by
    have hne : ¬ (some ca.fingerprint.aki = some ca.fingerprint.ski) := by
      rw [hcaAki]
      exact fun heq => hski (Option.some.inj heq).symm
    show (if some ca.fingerprint.aki = some ca.fingerprint.ski then none
      else (s.db.issuerTables text).firstBySki ca.fingerprint.aki) = _
    rw [if_neg hne, hcaAki]
    exact h.firstBySki hkeys text htop htopLeaf
  have hload : (s.db.issuerTables text).issuerCert ca.fingerprint = some ca.fingerprint := by
    obtain ⟨stored, hstored, hcert⟩ := h.kept ca hca
    refine if_pos ⟨List.mem_map.mpr ⟨stored, hstored, hcert⟩, ?_⟩
    show some ca.fingerprint.ski ≠ some ca.fingerprint.aki
    rw [hcaAki]
    exact fun heq => hski (Option.some.inj heq)
  have hstop : (s.db.issuerTables text).issuerCert top.fingerprint = none := by
    refine if_neg ?_
    rintro ⟨_, hne⟩
    exact hne (congrArg some hroot.aki.symm)
  have hnew : ca.fingerprint ≠ leaf.fingerprint := fun heq => hleafSki (by rw [heq])
  have hwalk : (s.db.issuerTables text).issuersAbove 2 leaf.fingerprint =
      some [ca.fingerprint] := by
    simp [IssuerTables.issuersAbove, walk, hfirst, hsecond, hload, hstop, hnew]
  intro fuel hfuel
  have hpos : 0 < s.db.certIndex.length := List.length_pos_of_mem hleaf
  exact walk_mono hwalk (by omega)

/-- The invariant holds in every store reached by one command at a time. -/
theorem rooted_of_reachable
    {w : World Store (Request × Command)}
    (hw : (ycaCalls.system Founded).Reachable undeclaring w) :
    Rooted w.shared := by
  refine alone_inv ?_ ?_ (fun req _ => Rules.free_admits req) ?_ hw
  · intro s req e hs hreq _ hmeets haccount
    exact hs.event hreq hmeets haccount
  · intro s s' hs hdb hpem _ hlog _
    refine hs.frame hdb hpem ?_
    intro leaf issuer
    simp only [IssuedUnder, hlog]
  · intro s hs
    obtain ⟨_, _, _, _, hceremony⟩ := hs.initialised.ceremony
    exact ⟨hceremony.lock, hs.rooted⟩

/-- The walk ends over every index, in distinct certificates that issued one another
and are not self-signed.  In every store reached by one command at a time it finds
above a leaf the one generation the leaf was issued under, as long as keys are apart. -/
theorem issuers_above :
    (∀ (γ κ : Type) [DecidableEq γ] [DecidableEq κ] (x : IssuerTables γ κ) (cert : γ),
      ∃ out,
        (∀ fuel, x.certIndex.length < fuel → x.issuersAbove fuel cert = some out) ∧
        out.Nodup ∧
        cert ∉ out ∧
        (∀ c ∈ out, x.skiOf c ≠ x.akiOf c) ∧
        (x.Faithful →
          List.IsChain (fun a b => ∃ id, x.akiOf a = some id ∧ x.skiOf b = some id)
            (cert :: out))) ∧
    ∀ (w : World Store (Request × Command)),
      (ycaCalls.system Founded).Reachable undeclaring w → KeysApart w.shared.db →
        ∀ (text : Cert → String), ∀ leaf ∈ w.shared.db.certIndex, leaf.isLeaf = true →
          ∃ issuer,
            IssuedUnder w.shared leaf.fingerprint issuer ∧
            (∀ other, IssuedUnder w.shared leaf.fingerprint other → other = issuer) ∧
            w.shared.db.OfGeneration issuer ∧
            ∀ fuel, w.shared.db.certIndex.length < fuel →
              (w.shared.db.issuerTables text).issuersAbove fuel leaf.fingerprint =
                some [issuer] := by
  constructor
  · intro γ κ _ _ x cert
    obtain ⟨out, hout⟩ := x.issuersAbove_terminates cert
    have hwalk := hout _ (Nat.lt_succ_self _)
    obtain ⟨hnodup, hnew, hsigned⟩ := IssuerTables.issuersAbove_distinct hwalk
    exact ⟨out, hout, hnodup, hnew, hsigned,
      fun hfaithful => IssuerTables.issuersAbove_isChain hfaithful hwalk⟩
  · intro w hw hkeys text leaf hleaf hisLeaf
    have hrooted := rooted_of_reachable hw
    obtain ⟨issuer, hissuer⟩ := hrooted.leaves leaf hleaf hisLeaf
    obtain ⟨hof, habove⟩ := hrooted.issuersAbove hkeys text hleaf hisLeaf hissuer
    refine ⟨issuer, hissuer, ?_, hof, habove⟩
    intro other hother
    obtain ⟨_, habove'⟩ := hrooted.issuersAbove hkeys text hleaf hisLeaf hother
    have hsame := (habove' _ (Nat.lt_succ_self _)).symm.trans (habove _ (Nat.lt_succ_self _))
    simpa using hsame

end Results

section Sample

instance (db : Db) : Decidable (KeysApart db) :=
  decidable_of_iff (_ ∧ _) ⟨fun h => ⟨h.1, h.2⟩, fun h => ⟨h.cas, h.leaves⟩⟩

/-- Two leaves, of the generation before a renewal and of the one after it. -/
theorem issuers_above_sample :
    ∃ (w : World Store (Request × Command)) (old new : CertRow) (first second : Cert),
      old ∈ w.shared.db.certIndex ∧
      new ∈ w.shared.db.certIndex ∧
      IssuedUnder w.shared old.fingerprint first ∧
      IssuedUnder w.shared new.fingerprint second ∧
      first ≠ second ∧
      (∃ fuel, (w.shared.db.issuerTables fun c => hexEncode c.serial).issuersAbove fuel
        old.fingerprint = some [first]) ∧
      ∃ fuel, (w.shared.db.issuerTables fun c => hexEncode c.serial).issuersAbove fuel
        new.fingerprint = some [second] := by
  have h :
      ((ycaCalls.system Founded).follow undeclaring (World.idle sampleStore) lineageLabels).any
        (fun w =>
          decide (KeysApart w.shared.db) &&
            w.shared.db.certIndex.any fun old => old.isLeaf &&
              w.shared.db.certIndex.any fun new => new.isLeaf &&
                old.fingerprint.aki != new.fingerprint.aki) = true := by
    decide
  obtain ⟨w, hrun, hcheck⟩ := Automaton.Run.exists_of_follow h
  have hw := Automaton.Reachable.of_run
    (M := ycaCalls.system Founded) ⟨sampleStore_founded, World.idle_quiet _⟩ hrun
  simp only [Bool.and_eq_true, decide_eq_true_eq, List.any_eq_true, bne_iff_ne] at hcheck
  obtain ⟨hkeys, old, hold, holdLeaf, new, hnew, hnewLeaf, hne⟩ := hcheck
  obtain ⟨first, hfirst, _, _, habove⟩ :=
    issuers_above.2 w hw hkeys (fun c => hexEncode c.serial) old hold holdLeaf
  obtain ⟨second, hsecond, _, _, habove'⟩ :=
    issuers_above.2 w hw hkeys (fun c => hexEncode c.serial) new hnew hnewLeaf
  refine ⟨w, old, new, first, second, hold, hnew, hfirst, hsecond, ?_,
    ⟨_, habove _ (Nat.lt_succ_self _)⟩, ⟨_, habove' _ (Nat.lt_succ_self _)⟩⟩
  rintro rfl
  have hrooted := rooted_of_reachable hw
  exact hne ((hrooted.issued _ _ hfirst).1.trans (hrooted.issued _ _ hsecond).1.symm)

end Sample

end Ca
end Yca
