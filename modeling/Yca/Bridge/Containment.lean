import Yca.Bridge.Interrupted
import Yca.Bridge.IssuerContents
import Yca.Ca.Lineage

/-!
# Sections, generations and their files

A leaf is issued from the sections in `ca_purpose`; its issuer is looked up in
`ca_cert_index` and read from `ca/<slug>.pem`.  `init` and `add_signing_ca` lock a section
as they mint its first generation, `renew_signing_ca` mints the next one from the locked
section.  The ceremonies read, write the file and record the generation in three moments,
between which others run.

What a leaf carries is within what its issuer's certificate carries, in every run in which
no ceremony writes the certificate of one section over the file of another.
-/

namespace Yca
namespace Bridge

open Yca.Core Ca
open Cfg (Locked PurposeRow lockPurpose loadPurpose loadConfig lock load)

section System

/-- A generation about to be minted: the configuration the ceremony runs with, the section,
and whether the section is to be locked (`add_signing_ca`) or is locked already. -/
structure Ceremony where
  config : Cfg.Config
  ca : Cfg.SigningCa
  next : CaGen
  locks : Bool
  deriving DecidableEq

/-- What issuance looks at: the locked configuration, `ca_cert_index`, the names of the CA
certificates in `cert_index`, the files `ca/<slug>.pem` of signing CAs, and the ceremonies
that have read and not yet written, and written and not yet recorded. -/
structure Hierarchy where
  locked : Locked
  rows : List CaRow
  caNames : List String
  pem : String → Option SigningCert
  settled : List Ceremony
  minted : List Ceremony

/-- `active_ca`. -/
def activeGen (rows : List CaRow) (config : Cfg.Config) (purpose : String) : CaGen :=
  match newest (fun r : CaRow => r.gen)
      (rows.filter fun r => r.purpose == purpose && r.status == .active) with
  | some r => r.toCaGen
  | none => configGen (summary config) purpose

/-- `cn_is_taken`. -/
def cnIsTaken (rows : List CaRow) (root : CaGen) (cn : String) : Bool :=
  cn == root.cn || rows.any fun r => r.cn == cn

/-- Whether a purpose is locked. -/
def Hierarchy.holds (s : Hierarchy) (purpose : String) : Bool :=
  s.locked.purposes.any fun row => row.purpose == purpose

/-- What can happen. -/
inductive HierarchyStep
  /-- One turn of `ensure_ca_index`, with the file at a path that holds a text, or with the
  locked configuration. -/
  | backfill (file : Option (String × String)) (purpose : String)
  /-- `add_signing_ca` with a file, up to `mint_ca_generation`. -/
  | add (path text purpose : String)
  /-- `renew_signing_ca`, up to there. -/
  | renew (purpose newCn : String)
  /-- The certificate is written: the root's key identifier and slug, and the new key. -/
  | mint (c : Ceremony) (rootKeyId : List UInt8) (rootSlug : String) (publicKey : List UInt8)
  /-- The transaction. -/
  | record (c : Ceremony)
  /-- The ceremony is refused, fails or is killed. -/
  | stop (c : Ceremony)

variable (oidText : String → Option String) (parse : String → Except Cfg.ParseError Toml.Table)

/-- A turn of the loop of `ensure_ca_index`. -/
def Hierarchy.backfilled (s : Hierarchy) (config : Cfg.Config) (purpose : String) : Hierarchy :=
  let g := configGen (summary config) purpose
  if s.rows.any fun r => r.purpose == purpose then s
  else if s.caNames.contains g.cn then
    { s with rows := s.rows ++ [⟨g, kindOf purpose, .active⟩] }
  else s

/-- `add_signing_ca` before the ceremony. -/
def Hierarchy.adding
    (s : Hierarchy)
    (file : Cfg.Config)
    (purpose : String) : Option Hierarchy :=
  match file.cas.find? purpose with
  | none => none
  | some ca =>
      if s.holds purpose || cnIsTaken s.rows (activeGen s.rows file "root") ca.cn then none
      else
        some { s with settled := ⟨file, ca, ⟨purpose, 1, ca.cn, ca.slug⟩, true⟩ :: s.settled }

/-- `renew_signing_ca` before the ceremony. -/
def Hierarchy.renewing (s : Hierarchy) (purpose newCn : String) : Option Hierarchy :=
  match loadConfig s.locked with
  | none => none
  | some config =>
      match config.cas.find? purpose with
      | none => none
      | some ca =>
          let gen := (activeGen s.rows config purpose).gen + 1
          if newCn = "" || cnIsTaken s.rows (activeGen s.rows config "root") newCn then none
          else
            some
              { s with
                settled :=
                  ⟨config, ca, ⟨purpose, gen, newCn, ca.slugPrefix ++ toString gen⟩, false⟩ ::
                    s.settled }

/-- The transaction of `add_signing_ca`. -/
def Hierarchy.joined (s : Hierarchy) (c : Ceremony) : Hierarchy :=
  { s with
    locked := { s.locked with purposes := s.locked.purposes ++ [lockPurpose c.ca] }
    rows := s.rows ++ [⟨c.next, .signing, .active⟩]
    caNames := s.caNames ++ [c.next.cn] }

/-- The transaction of `renew_signing_ca`. -/
def Hierarchy.succeeded (s : Hierarchy) (c : Ceremony) : Hierarchy :=
  { s with
    rows := retire s.rows c.next.purpose ++ [⟨c.next, .signing, .active⟩]
    caNames := s.caNames ++ [c.next.cn] }

/-- The transaction of a ceremony; nothing where it violates a primary key. -/
def Hierarchy.recorded (s : Hierarchy) (c : Ceremony) : Hierarchy :=
  if (c.locks && s.holds c.ca.purpose) || s.rows.any fun r =>
      r.kind == .signing && r.purpose == c.next.purpose && r.gen == c.next.gen then s
  else if c.locks then s.joined c
  else s.succeeded c

def Hierarchy.exec (s : Hierarchy) : HierarchyStep → Option Hierarchy
  | .backfill none purpose => (loadConfig s.locked).map fun config => s.backfilled config purpose
  | .backfill (some (path, text)) purpose =>
      match load oidText parse path (some text) with
      | .error _ => none
      | .ok file => some (s.backfilled file purpose)
  | .add path text purpose =>
      match load oidText parse path (some text) with
      | .error _ => none
      | .ok file => s.adding file purpose
  | .renew purpose newCn => s.renewing purpose newCn
  | .mint c rootKeyId rootSlug publicKey =>
      if c ∈ s.settled then
        some
          { s with
            pem :=
              Function.update s.pem c.next.slug
                (some (mintCert c.config c.ca c.next.cn rootKeyId rootSlug publicKey))
            settled := s.settled.erase c
            minted := c :: s.minted }
      else none
  | .record c =>
      if c ∈ s.minted then some { s.recorded c with minted := s.minted.erase c } else none
  | .stop c => some { s with settled := s.settled.erase c, minted := s.minted.erase c }

/-- What `init` leaves of a file: every CA locked and recorded at its first generation, and
the certificate files it managed to write. -/
structure Hierarchy.FoundedFrom (s : Hierarchy) (file : Cfg.Config) : Prop where
  locked : s.locked = lock file
  rows : s.rows = firstRows (summary file)
  caNames : s.caNames = file.root.cn :: file.cas.values.map fun ca => ca.cn
  pem : ∀ slug cert, s.pem slug = some cert → ∃ ca ∈ file.cas.values, ca.slug = slug ∧
    ∃ rootKeyId publicKey, cert = mintCert file ca ca.cn rootKeyId file.root.slug publicKey
  settled : s.settled = []
  minted : s.minted = []

/-- The store from `init` on. -/
def hierarchy : Automaton Hierarchy HierarchyStep where
  init s := ∃ path text file, load oidText parse path (some text) = .ok file ∧ s.FoundedFrom file
  exec s x := s.exec oidText parse x

/-- Sections that mint alike. -/
def MintAlike (a b : Cfg.SigningCa) : Prop :=
  a.profiles = b.profiles ∧ a.policies = b.policies

instance (a b : Cfg.SigningCa) : Decidable (MintAlike a b) :=
  inferInstanceAs (Decidable (_ ∧ _))

/-- A ceremony writes over no file of a section with other profiles or policies: not the
file of a recorded generation, and not that of a ceremony still to be recorded. -/
def KeepsFiles (s : Hierarchy) : HierarchyStep → Prop
  | .mint c _ _ _ =>
      (∀ row ∈ s.locked.purposes, ∀ r ∈ s.rows, r.purpose = row.purpose →
        r.slug = c.next.slug → MintAlike c.ca (loadPurpose row)) ∧
      ∀ c' ∈ s.minted, c'.next.slug = c.next.slug → MintAlike c.ca c'.ca
  | _ => True

instance (s : Hierarchy) (x : HierarchyStep) : Decidable (KeepsFiles s x) :=
  match x with
  | .mint .. => inferInstanceAs (Decidable (_ ∧ _))
  | .backfill .. | .add .. | .renew .. | .record _ | .stop _ => instDecidableTrue

end System

section Invariant

variable {oidText : String → Option String} {parse : String → Except Cfg.ParseError Toml.Table}

theorem SigningCert.Bears.congr
    {cert : SigningCert}
    {a b : Cfg.SigningCa}
    (h : cert.Bears a)
    (halike : MintAlike a b) :
    cert.Bears b := by
  obtain ⟨hprofiles, hpolicies⟩ := halike
  constructor
  · rw [h.usages, signingCaEkus, hprofiles]
    rfl
  · rw [h.policies, caPolicies, hprofiles, hpolicies]
    rfl

/-- What a ceremony may rely on: the section it locks is that of an accepted file, the
section it renews is locked. -/
structure Ceremony.Sound
    (oidText : String → Option String)
    (c : Ceremony)
    (s : Hierarchy) : Prop where
  joins : c.locks = true → (∃ rootDays, c.ca.Valid oidText rootDays) ∧
    c.next.purpose = c.ca.purpose ∧ c.next.gen = 1 ∧ c.next.slug = c.ca.slug
  renews : c.locks = false → ∃ row ∈ s.locked.purposes, row.purpose = c.next.purpose ∧
    c.ca = loadPurpose row

/-- Every file of a locked CA's generation holds what its section mints. -/
structure Hierarchy.Contained (oidText : String → Option String) (s : Hierarchy) : Prop where
  valid : ∀ row ∈ s.locked.purposes, ∃ ca rootDays, ca.Valid oidText rootDays ∧
    row = lockPurpose ca
  once : ∀ row ∈ s.locked.purposes, ∀ row' ∈ s.locked.purposes,
    row.purpose = row'.purpose → row = row'
  files : ∀ row ∈ s.locked.purposes, ∀ r ∈ s.rows, r.purpose = row.purpose →
    ∀ cert, s.pem r.slug = some cert → cert.Bears (loadPurpose row)
  first : ∀ row ∈ s.locked.purposes, ∃ r ∈ s.rows, r.purpose = row.purpose ∧ r.slug = row.slug
  unlocked : ∀ r ∈ s.rows, r.purpose ≠ "root" → s.holds r.purpose = false →
    r.kind = .signing ∧ r.gen = 1
  settled : ∀ c ∈ s.settled, c.Sound oidText s
  minted : ∀ c ∈ s.minted, c.Sound oidText s
  written : ∀ c ∈ s.minted, ∀ cert, s.pem c.next.slug = some cert → cert.Bears c.ca

theorem Hierarchy.holds_iff
    {s : Hierarchy}
    {purpose : String} :
    s.holds purpose = true ↔ ∃ row ∈ s.locked.purposes, row.purpose = purpose := by
  simp [holds]

/-- A section comes back with its purpose, slug, profiles and policies. -/
theorem loadPurpose_valid
    (hoid : Cfg.DottedDecimal oidText)
    {ca : Cfg.SigningCa}
    {rootDays : Int}
    (h : ca.Valid oidText rootDays) :
    (loadPurpose (lockPurpose ca)).purpose = ca.purpose ∧
      (loadPurpose (lockPurpose ca)).slug = ca.slug ∧
      MintAlike ca (loadPurpose (lockPurpose ca)) := by
  rw [Cfg.loadPurpose_lockPurpose hoid h]
  exact ⟨rfl, rfl, rfl, rfl⟩

/-- Where `load_config` finds a section. -/
theorem row_of_loadConfig
    {l : Locked}
    {config : Cfg.Config}
    (h : loadConfig l = some config)
    {purpose : String}
    {ca : Cfg.SigningCa}
    (hca : config.cas.find? purpose = some ca) :
    ∃ row ∈ l.purposes, (loadPurpose row).purpose = purpose ∧ ca = loadPurpose row := by
  unfold loadConfig at h
  simp only at h
  split at h
  · simp at h
  · split_ifs at h
    obtain rfl := Option.some.inj h
    rw [OrderedMap.find?_ofEntries] at hca
    obtain ⟨row, hrow, heq⟩ := List.mem_map.mp (mem_of_lookup hca)
    rw [Prod.mk.injEq] at heq
    exact ⟨row, hrow, heq.1, heq.2.symm⟩

/-- Ceremonies that end, and a sound one that starts, change nothing else. -/
theorem Hierarchy.Contained.frame
    {s : Hierarchy}
    (h : s.Contained oidText)
    {settled minted : List Ceremony}
    (hsettled : ∀ c ∈ settled, c ∈ s.settled ∨ c.Sound oidText s)
    (hminted : minted ⊆ s.minted) :
    { s with settled := settled, minted := minted }.Contained oidText where
  valid := h.valid
  once := h.once
  files := h.files
  first := h.first
  unlocked := h.unlocked
  settled := by
    intro c hc
    rcases hsettled c hc with hold | hnew
    · exact ⟨(h.settled c hold).joins, (h.settled c hold).renews⟩
    · exact ⟨hnew.joins, hnew.renews⟩
  minted := by
    intro c hc
    have hold := h.minted c (hminted hc)
    exact ⟨hold.joins, hold.renews⟩
  written := fun c hc => h.written c (hminted hc)

/-- What a ceremony settles that adds a CA. -/
theorem Hierarchy.adding_eq
    {s s' : Hierarchy}
    {file : Cfg.Config}
    {purpose : String}
    (h : s.adding file purpose = some s') :
    ∃ ca, file.cas.find? purpose = some ca ∧
      s' = { s with settled := ⟨file, ca, ⟨purpose, 1, ca.cn, ca.slug⟩, true⟩ :: s.settled } := by
  unfold Hierarchy.adding at h
  split at h
  · simp at h
  · rename_i ca hca
    split_ifs at h
    exact ⟨ca, hca, (Option.some.inj h).symm⟩

/-- What a ceremony settles that renews one. -/
theorem Hierarchy.renewing_eq
    {s s' : Hierarchy}
    {purpose newCn : String}
    (h : s.renewing purpose newCn = some s') :
    ∃ config ca gen, loadConfig s.locked = some config ∧ config.cas.find? purpose = some ca ∧
      s' =
        { s with
          settled :=
            ⟨config, ca, ⟨purpose, gen, newCn, ca.slugPrefix ++ toString gen⟩, false⟩ ::
              s.settled } := by
  unfold Hierarchy.renewing at h
  split at h
  · simp at h
  · rename_i config hconfig
    split at h
    · simp at h
    · rename_i ca hca
      split_ifs at h
      exact ⟨config, ca, _, hconfig, hca, (Option.some.inj h).symm⟩

theorem Hierarchy.Contained.adding
    {s s' : Hierarchy}
    (h : s.Contained oidText)
    {file : Cfg.Config}
    (hfile : file.Accepted oidText)
    {purpose : String}
    (hs' : s.adding file purpose = some s') :
    s'.Contained oidText := by
  obtain ⟨ca, hca, rfl⟩ := adding_eq hs'
  obtain ⟨hpurpose, hvalid⟩ := hfile.cas purpose ca hca
  refine h.frame ?_ fun c hc => hc
  intro c hc
  rcases List.mem_cons.mp hc with rfl | hold
  · refine Or.inr ⟨fun _ => ⟨⟨_, hvalid⟩, hpurpose.symm, rfl, rfl⟩, ?_⟩
    intro hlocks
    simp at hlocks
  · exact Or.inl hold

theorem Hierarchy.Contained.renewing
    (hoid : Cfg.DottedDecimal oidText)
    {s s' : Hierarchy}
    (h : s.Contained oidText)
    {purpose newCn : String}
    (hs' : s.renewing purpose newCn = some s') :
    s'.Contained oidText := by
  obtain ⟨config, ca, gen, hconfig, hca, rfl⟩ := renewing_eq hs'
  obtain ⟨row, hrow, hpurpose, rfl⟩ := row_of_loadConfig hconfig hca
  refine h.frame ?_ fun c hc => hc
  intro c hc
  rcases List.mem_cons.mp hc with rfl | hold
  · refine Or.inr ⟨?_, fun _ => ⟨row, hrow, ?_, rfl⟩⟩
    · intro hlocks
      simp at hlocks
    · obtain ⟨held, _, hvalid, rfl⟩ := h.valid row hrow
      exact (loadPurpose_valid hoid hvalid).1.symm.trans hpurpose
  · exact Or.inl hold

/-- A backfilled generation belongs to a purpose that is not locked. -/
theorem Hierarchy.Contained.backfilled
    {s : Hierarchy}
    (h : s.Contained oidText)
    (config : Cfg.Config)
    (purpose : String) :
    (s.backfilled config purpose).Contained oidText := by
  unfold Hierarchy.backfilled
  simp only
  split_ifs with hany hname
  · exact h
  · have hfree : ∀ row ∈ s.locked.purposes, purpose ≠ row.purpose := by
      rintro row hrow rfl
      obtain ⟨r, hr, hpurpose, _⟩ := h.first row hrow
      exact hany (List.any_eq_true.mpr ⟨r, hr, by simpa using hpurpose⟩)
    have hnew : (configGen (summary config) purpose).purpose = purpose := configGen_purpose _ _
    constructor
    case valid => exact h.valid
    case once => exact h.once
    case files =>
      intro row hrow r hr hpurpose
      rcases List.mem_append.mp hr with hold | hlast
      · exact h.files row hrow r hold hpurpose
      · rw [List.mem_singleton.mp hlast] at hpurpose
        exact absurd (hnew.symm.trans hpurpose) (hfree row hrow)
    case first =>
      intro row hrow
      obtain ⟨r, hr, hboth⟩ := h.first row hrow
      exact ⟨r, List.mem_append_left _ hr, hboth⟩
    case unlocked =>
      intro r hr hroot hholds
      rcases List.mem_append.mp hr with hold | hlast
      · exact h.unlocked r hold hroot hholds
      · obtain rfl := List.mem_singleton.mp hlast
        refine ⟨?_, configGen_gen _ _⟩
        have hne : purpose ≠ "root" := fun heq => hroot (hnew.trans heq)
        simp [kindOf, hne]
    case settled => exact fun c hc => ⟨(h.settled c hc).joins, (h.settled c hc).renews⟩
    case minted => exact fun c hc => ⟨(h.minted c hc).joins, (h.minted c hc).renews⟩
    case written => exact h.written
  · exact h

/-- A certificate is written over no file of another section. -/
theorem Hierarchy.Contained.mint
    {s : Hierarchy}
    (h : s.Contained oidText)
    {c : Ceremony}
    (hc : c ∈ s.settled)
    {rootKeyId publicKey : List UInt8}
    {rootSlug : String}
    (hkeeps : KeepsFiles s (.mint c rootKeyId rootSlug publicKey)) :
    { s with
      pem :=
        Function.update s.pem c.next.slug
          (some (mintCert c.config c.ca c.next.cn rootKeyId rootSlug publicKey))
      settled := s.settled.erase c
      minted := c :: s.minted }.Contained oidText := by
  have hbears := mintCert_bears c.config c.ca c.next.cn rootKeyId rootSlug publicKey
  constructor
  case valid => exact h.valid
  case once => exact h.once
  case first => exact h.first
  case unlocked => exact h.unlocked
  case files =>
    intro row hrow r hr hpurpose cert hcert
    by_cases hslug : r.slug = c.next.slug
    · simp only [hslug, Function.update_self, Option.some.injEq] at hcert
      rw [← hcert]
      exact hbears.congr (hkeeps.1 row hrow r hr hpurpose hslug)
    · simp only [Function.update_of_ne hslug] at hcert
      exact h.files row hrow r hr hpurpose cert hcert
  case settled =>
    intro c' hc'
    have hold := h.settled c' (List.mem_of_mem_erase hc')
    exact ⟨hold.joins, hold.renews⟩
  case minted =>
    intro c' hc'
    rcases List.mem_cons.mp hc' with rfl | hc'
    · exact ⟨(h.settled c' hc).joins, (h.settled c' hc).renews⟩
    · exact ⟨(h.minted c' hc').joins, (h.minted c' hc').renews⟩
  case written =>
    intro c' hc' cert hcert
    by_cases hslug : c'.next.slug = c.next.slug
    · simp only [hslug, Function.update_self, Option.some.injEq] at hcert
      rw [← hcert]
      rcases List.mem_cons.mp hc' with rfl | hc'
      · exact hbears
      · exact hbears.congr (hkeeps.2 c' hc' hslug)
    · simp only [Function.update_of_ne hslug] at hcert
      rcases List.mem_cons.mp hc' with rfl | hc'
      · exact absurd rfl hslug
      · exact h.written c' hc' cert hcert

/-- A section joins with its first generation. -/
theorem Hierarchy.Contained.joined
    (hoid : Cfg.DottedDecimal oidText)
    {s : Hierarchy}
    (h : s.Contained oidText)
    {c : Ceremony}
    (hc : c ∈ s.minted)
    (hlocks : c.locks = true)
    (hfree : s.holds c.ca.purpose = false)
    (hkey : ¬ (s.rows.any fun r =>
      r.kind == .signing && r.purpose == c.next.purpose && r.gen == c.next.gen) = true) :
    (s.joined c).Contained oidText := by
  obtain ⟨⟨rootDays, hvalid⟩, hpurpose, hgen, hslug⟩ := (h.minted c hc).joins hlocks
  obtain ⟨_, _, halike⟩ := loadPurpose_valid hoid hvalid
  have hnew : ∀ row ∈ s.locked.purposes, row.purpose ≠ c.ca.purpose := by
    intro row hrow heq
    rw [← Bool.not_eq_true, Hierarchy.holds_iff] at hfree
    exact hfree ⟨row, hrow, heq⟩
  have hnone : ∀ r ∈ s.rows, r.purpose ≠ c.ca.purpose := by
    intro r hr heq
    have hfirst := h.unlocked r hr (heq ▸ hvalid.notRoot) (heq ▸ hfree)
    refine hkey (List.any_eq_true.mpr ⟨r, hr, ?_⟩)
    simp [hfirst.1, hfirst.2, heq, hpurpose, hgen]
  have hholds : ∀ purpose, s.holds purpose = true → (s.joined c).holds purpose = true := by
    intro purpose hheld
    obtain ⟨row, hrow, heq⟩ := Hierarchy.holds_iff.mp hheld
    exact Hierarchy.holds_iff.mpr ⟨row, List.mem_append_left _ hrow, heq⟩
  have hsound : ∀ c' : Ceremony, c'.Sound oidText s → c'.Sound oidText (s.joined c) := by
    intro c' hc'
    refine ⟨hc'.joins, fun hrenews => ?_⟩
    obtain ⟨row, hrow, hboth⟩ := hc'.renews hrenews
    exact ⟨row, List.mem_append_left _ hrow, hboth⟩
  constructor
  case valid =>
    intro row hrow
    rcases List.mem_append.mp hrow with hold | hlast
    · exact h.valid row hold
    · exact ⟨c.ca, rootDays, hvalid, List.mem_singleton.mp hlast⟩
  case once =>
    intro row hrow row' hrow' heq
    rcases List.mem_append.mp hrow with hold | hlast
    · rcases List.mem_append.mp hrow' with hold' | hlast'
      · exact h.once row hold row' hold' heq
      · rw [List.mem_singleton.mp hlast'] at heq
        exact absurd heq (hnew row hold)
    · rcases List.mem_append.mp hrow' with hold' | hlast'
      · rw [List.mem_singleton.mp hlast] at heq
        exact absurd heq.symm (hnew row' hold')
      · rw [List.mem_singleton.mp hlast, List.mem_singleton.mp hlast']
  case files =>
    intro row hrow r hr heq cert hcert
    rcases List.mem_append.mp hrow with hold | hlast
    · rcases List.mem_append.mp hr with hold' | hlast'
      · exact h.files row hold r hold' heq cert hcert
      · rw [List.mem_singleton.mp hlast'] at heq
        exact absurd (heq.symm.trans hpurpose) (hnew row hold)
    · rw [List.mem_singleton.mp hlast] at heq ⊢
      rcases List.mem_append.mp hr with hold' | hlast'
      · exact absurd heq (hnone r hold')
      · rw [List.mem_singleton.mp hlast'] at hcert
        exact (h.written c hc cert hcert).congr halike
  case first =>
    intro row hrow
    rcases List.mem_append.mp hrow with hold | hlast
    · obtain ⟨r, hr, hboth⟩ := h.first row hold
      exact ⟨r, List.mem_append_left _ hr, hboth⟩
    · refine ⟨_, List.mem_append_right _ List.mem_cons_self, ?_⟩
      rw [List.mem_singleton.mp hlast]
      exact ⟨hpurpose, hslug⟩
  case unlocked =>
    intro r hr hroot hunheld
    rcases List.mem_append.mp hr with hold | hlast
    · refine h.unlocked r hold hroot ?_
      by_contra hheld
      rw [hholds r.purpose (by simpa using hheld)] at hunheld
      simp at hunheld
    · rw [List.mem_singleton.mp hlast] at hunheld
      rw [← Bool.not_eq_true, Hierarchy.holds_iff] at hunheld
      exact absurd ⟨_, List.mem_append_right _ List.mem_cons_self, hpurpose.symm⟩ hunheld
  case settled => exact fun c' hc' => hsound c' (h.settled c' hc')
  case minted => exact fun c' hc' => hsound c' (h.minted c' hc')
  case written => exact h.written

/-- A generation that retires keeps its identity. -/
theorem retire_extends
    {rows : List CaRow}
    (purpose : String)
    {r : CaRow}
    (hr : r ∈ rows) :
    ∃ r' ∈ retire rows purpose, r'.toCaGen = r.toCaGen := by
  obtain ⟨r', hr', hgen, _⟩ := updateWhere_extends
    (fun r => r.purpose == purpose && r.status == .active) (f := fun r => { r with status := .retiring })
    (fun _ => ⟨rfl, rfl⟩) hr
  exact ⟨r', hr', hgen⟩

/-- A locked section goes on with its next generation. -/
theorem Hierarchy.Contained.succeeded
    {s : Hierarchy}
    (h : s.Contained oidText)
    {c : Ceremony}
    (hc : c ∈ s.minted)
    (hlocks : c.locks = false) :
    (s.succeeded c).Contained oidText := by
  obtain ⟨held, hheld, hpurpose, hca⟩ := (h.minted c hc).renews hlocks
  constructor
  case valid => exact h.valid
  case once => exact h.once
  case files =>
    intro row hrow r hr heq cert hcert
    rcases List.mem_append.mp hr with hold | hlast
    · obtain ⟨r₀, hr₀, hgen, _⟩ := mem_retire hold
      have hslug : r.slug = r₀.slug := congrArg CaGen.slug hgen
      have hpurpose₀ : r.purpose = r₀.purpose := congrArg CaGen.purpose hgen
      rw [hslug] at hcert
      exact h.files row hrow r₀ hr₀ (hpurpose₀.symm.trans heq) cert hcert
    · rw [List.mem_singleton.mp hlast] at heq hcert
      rw [h.once row hrow held hheld (heq.symm.trans hpurpose.symm), ← hca]
      exact h.written c hc cert hcert
  case first =>
    intro row hrow
    obtain ⟨r, hr, hboth⟩ := h.first row hrow
    obtain ⟨r', hr', hgen⟩ := retire_extends c.next.purpose hr
    refine ⟨r', List.mem_append_left _ hr', ?_⟩
    rw [hgen]
    exact hboth
  case unlocked =>
    intro r hr hroot hunheld
    rcases List.mem_append.mp hr with hold | hlast
    · obtain ⟨r₀, hr₀, hgen, hkind, _⟩ := mem_retire hold
      rw [hgen] at hroot hunheld ⊢
      rw [hkind]
      exact h.unlocked r₀ hr₀ hroot hunheld
    · rw [List.mem_singleton.mp hlast] at hunheld
      rw [← Bool.not_eq_true, Hierarchy.holds_iff] at hunheld
      exact absurd ⟨held, hheld, hpurpose⟩ hunheld
  case settled => exact fun c' hc' => ⟨(h.settled c' hc').joins, (h.settled c' hc').renews⟩
  case minted => exact fun c' hc' => ⟨(h.minted c' hc').joins, (h.minted c' hc').renews⟩
  case written => exact h.written

theorem Hierarchy.Contained.recorded
    (hoid : Cfg.DottedDecimal oidText)
    {s : Hierarchy}
    (h : s.Contained oidText)
    {c : Ceremony}
    (hc : c ∈ s.minted) :
    (s.recorded c).Contained oidText := by
  unfold Hierarchy.recorded
  split_ifs with hkey hlocks
  · exact h
  · simp only [Bool.or_eq_true, not_or, hlocks, Bool.true_and, Bool.not_eq_true] at hkey
    exact h.joined hoid hc hlocks hkey.1 (by simp [hkey.2])
  · exact h.succeeded hc (by simpa using hlocks)

/-- The first generation of a section has the slug of the section. -/
theorem configGen_slug
    {config : Cfg.Config}
    (hkeys : ∀ k ca, config.cas.find? k = some ca → ca.purpose = k)
    {purpose : String}
    (hroot : purpose ≠ "root")
    {ca : Cfg.SigningCa}
    (hca : config.cas.find? purpose = some ca) :
    (configGen (summary config) purpose).slug = ca.slug := by
  have hmem : ∀ x ∈ config.cas.values, x.purpose = purpose → x = ca := by
    intro x hx heq
    obtain ⟨⟨k, _⟩, he, rfl⟩ := List.mem_map.mp hx
    have hfind := OrderedMap.mem_entries_iff.mp he
    rw [← hkeys k _ hfind, heq] at hfind
    exact Option.some.inj (hfind.symm.trans hca)
  have hfound : (summary config).ca purpose = some (signingCa ca) := by
    have hself : ca ∈ config.cas.values :=
      List.mem_map.mpr ⟨_, OrderedMap.mem_entries_iff.mpr hca, rfl⟩
    refine find?_eq_of_only (List.mem_map_of_mem hself) ?_ ?_
    · simp [signingCa, hkeys purpose ca hca]
    · intro y hy hpurpose
      obtain ⟨x, hx, rfl⟩ := List.mem_map.mp hy
      have heq : x.purpose = purpose := by simpa [signingCa] using hpurpose
      rw [hmem x hx heq]
  rw [configGen, if_neg hroot, hfound]
  rfl

/-- What `init` leaves is contained. -/
theorem Hierarchy.FoundedFrom.contained
    (hoid : Cfg.DottedDecimal oidText)
    {s : Hierarchy}
    {file : Cfg.Config}
    (hfile : file.Accepted oidText)
    (h : s.FoundedFrom file) :
    s.Contained oidText := by
  have hfind : ∀ ca ∈ file.cas.values, file.cas.find? ca.purpose = some ca :=
    fun ca hca => (hfile.of_mem hca).1
  have hkeys : ∀ k ca, file.cas.find? k = some ca → ca.purpose = k :=
    fun k ca hca => (hfile.cas k ca hca).1
  have hsections : ∀ row ∈ s.locked.purposes, ∃ ca ∈ file.cas.values, lockPurpose ca = row := by
    rw [h.locked]
    exact fun row hrow => List.mem_map.mp hrow
  have hslug : ∀ ca ∈ file.cas.values, ∀ ca' ∈ file.cas.values, ca'.slug = ca.slug → ca' = ca := by
    intro ca hca ca' hca' heq
    rw [(hfile.of_mem hca).2.slug, (hfile.of_mem hca').2.slug] at heq
    have hprefix : ca'.slugPrefix = ca.slugPrefix := by
      have hlist := congrArg String.toList heq
      rw [String.toList_append, String.toList_append] at hlist
      exact String.toList_injective (List.append_cancel_right hlist)
    exact List.inj_on_of_nodup_map (List.nodup_cons.mp hfile.prefixes_nodup).2 hca' hca hprefix
  have hrows : ∀ r ∈ s.rows, ∃ p ∈ "root" :: (summary file).cas.map Ca.SigningCa.purpose,
      r = ⟨configGen (summary file) p, kindOf p, .active⟩ := by
    rw [h.rows]
    intro r hr
    obtain ⟨p, hp, heq⟩ := List.mem_map.mp hr
    exact ⟨p, hp, heq.symm⟩
  constructor
  case valid =>
    intro row hrow
    obtain ⟨ca, hca, rfl⟩ := hsections row hrow
    exact ⟨ca, _, (hfile.of_mem hca).2, rfl⟩
  case once =>
    intro row hrow row' hrow' heq
    obtain ⟨ca, hca, rfl⟩ := hsections row hrow
    obtain ⟨ca', hca', rfl⟩ := hsections row' hrow'
    have hboth := hfind ca hca
    rw [show ca.purpose = ca'.purpose from heq, hfind ca' hca'] at hboth
    rw [Option.some.inj hboth]
  case files =>
    intro row hrow r hr heq cert hcert
    obtain ⟨ca, hca, rfl⟩ := hsections row hrow
    obtain ⟨p, _, rfl⟩ := hrows r hr
    have hvalid := (hfile.of_mem hca).2
    have hp : p = ca.purpose := (configGen_purpose _ p).symm.trans heq
    obtain ⟨ca', hca', hsame, _, _, rfl⟩ := h.pem _ cert hcert
    rw [hp, configGen_slug hkeys hvalid.notRoot (hfind ca hca)] at hsame
    obtain rfl := hslug ca hca ca' hca' hsame
    exact (mintCert_bears ..).congr (loadPurpose_valid hoid hvalid).2.2
  case first =>
    intro row hrow
    obtain ⟨ca, hca, rfl⟩ := hsections row hrow
    refine ⟨⟨configGen (summary file) ca.purpose, kindOf ca.purpose, .active⟩, ?_,
      configGen_purpose _ _, configGen_slug hkeys (hfile.of_mem hca).2.notRoot (hfind ca hca)⟩
    rw [h.rows]
    refine List.mem_map_of_mem (List.mem_cons_of_mem _ (List.mem_map.mpr ⟨signingCa ca, ?_, rfl⟩))
    exact List.mem_map_of_mem hca
  case unlocked =>
    intro r hr hroot hunheld
    obtain ⟨p, hp, rfl⟩ := hrows r hr
    have hpurpose : (configGen (summary file) p).purpose = p := configGen_purpose _ p
    rcases List.mem_cons.mp hp with rfl | hp
    · exact absurd hpurpose hroot
    · obtain ⟨x, hx, rfl⟩ := List.mem_map.mp hp
      obtain ⟨ca, hca, rfl⟩ := List.mem_map.mp hx
      rw [← Bool.not_eq_true, Hierarchy.holds_iff, h.locked] at hunheld
      exact absurd ⟨lockPurpose ca, List.mem_map_of_mem hca, hpurpose.symm⟩ hunheld
  case settled => simp [h.settled]
  case minted => simp [h.minted]
  case written => simp [h.minted]

end Invariant

section Runs

variable {oidText : String → Option String} {parse : String → Except Cfg.ParseError Toml.Table}

/-- What a step can do. -/
theorem Hierarchy.exec_cases
    {s s' : Hierarchy}
    {x : HierarchyStep}
    (hx : s.exec oidText parse x = some s') :
    (∃ config purpose, s' = s.backfilled config purpose) ∨
      (∃ path text purpose file, load oidText parse path (some text) = .ok file ∧
        s.adding file purpose = some s') ∨
      (∃ purpose newCn, s.renewing purpose newCn = some s') ∨
      (∃ c rootKeyId rootSlug publicKey, x = .mint c rootKeyId rootSlug publicKey ∧
        c ∈ s.settled ∧
        s' =
          { s with
            pem :=
              Function.update s.pem c.next.slug
                (some (mintCert c.config c.ca c.next.cn rootKeyId rootSlug publicKey))
            settled := s.settled.erase c
            minted := c :: s.minted }) ∨
      (∃ c, c ∈ s.minted ∧ s' = { s.recorded c with minted := s.minted.erase c }) ∨
      ∃ c, s' = { s with settled := s.settled.erase c, minted := s.minted.erase c } := by
  cases x with
  | backfill file purpose =>
      refine Or.inl ?_
      rcases file with _ | ⟨path, text⟩
      · obtain ⟨config, _, rfl⟩ := Option.map_eq_some_iff.mp hx
        exact ⟨config, purpose, rfl⟩
      · simp only [exec] at hx
        split at hx
        · simp at hx
        · exact ⟨_, purpose, (Option.some.inj hx).symm⟩
  | add path text purpose =>
      simp only [exec] at hx
      split at hx
      · simp at hx
      · rename_i file hload
        exact Or.inr (Or.inl ⟨path, text, purpose, file, hload, hx⟩)
  | renew purpose newCn => exact Or.inr (Or.inr (Or.inl ⟨purpose, newCn, hx⟩))
  | mint c rootKeyId rootSlug publicKey =>
      simp only [exec] at hx
      split_ifs at hx with hc
      exact Or.inr (Or.inr (Or.inr (Or.inl
        ⟨c, rootKeyId, rootSlug, publicKey, rfl, hc, (Option.some.inj hx).symm⟩)))
  | record c =>
      simp only [exec] at hx
      split_ifs at hx with hc
      exact Or.inr (Or.inr (Or.inr (Or.inr (Or.inl ⟨c, hc, (Option.some.inj hx).symm⟩))))
  | stop c => exact Or.inr (Or.inr (Or.inr (Or.inr (Or.inr ⟨c, (Option.some.inj hx).symm⟩))))

theorem Hierarchy.Contained.step
    (hoid : Cfg.DottedDecimal oidText)
    {s s' : Hierarchy}
    (h : s.Contained oidText)
    {x : HierarchyStep}
    (hkeeps : KeepsFiles s x)
    (hx : s.exec oidText parse x = some s') :
    s'.Contained oidText := by
  rcases exec_cases hx with ⟨config, purpose, rfl⟩ | ⟨_, _, _, _, hload, hadd⟩ | ⟨_, _, hrenew⟩ |
    ⟨c, _, _, _, rfl, hc, rfl⟩ | ⟨c, hc, rfl⟩ | ⟨c, rfl⟩
  · exact h.backfilled config purpose
  · exact h.adding (Cfg.load_accepted hload) hadd
  · exact h.renewing hoid hrenew
  · exact h.mint hc hkeeps
  · have hminted : (s.recorded c).minted = s.minted := by
      unfold Hierarchy.recorded
      split_ifs <;> rfl
    refine (h.recorded hoid hc).frame (fun c' => Or.inl) ?_
    rw [hminted]
    exact List.erase_subset
  · exact h.frame (fun c' hc' => Or.inl (List.mem_of_mem_erase hc')) List.erase_subset

theorem contained_of_reachable
    (hoid : Cfg.DottedDecimal oidText)
    {s : Hierarchy}
    (hs : (hierarchy oidText parse).Reachable KeepsFiles s) :
    s.Contained oidText := by
  refine Automaton.Reachable.invariant (I := fun s => s.Contained oidText) ?_ ?_ hs
  · rintro s ⟨path, text, file, hload, hfounded⟩
    exact hfounded.contained hoid (Cfg.load_accepted hload)
  · intro s x s' h hkeeps hx
    exact h.step hoid hkeeps hx

/-- What is locked stays locked, and a recorded generation keeps its identity. -/
structure Hierarchy.Extends (s t : Hierarchy) : Prop where
  purposes : s.locked.purposes ⊆ t.locked.purposes
  rows : ∀ r ∈ s.rows, ∃ r' ∈ t.rows, r'.toCaGen = r.toCaGen

theorem Hierarchy.Extends.of_same
    {s t : Hierarchy}
    (hlocked : t.locked = s.locked)
    (hrows : s.rows ⊆ t.rows) :
    s.Extends t :=
  ⟨by rw [hlocked]; exact List.Subset.refl _, fun r hr => ⟨r, hrows hr, rfl⟩⟩

theorem extends_recorded (s : Hierarchy) (c : Ceremony) :
    s.Extends (s.recorded c) := by
  unfold Hierarchy.recorded
  split_ifs
  · exact .of_same rfl (List.Subset.refl _)
  · exact ⟨List.subset_append_left _ _, fun r hr => ⟨r, List.mem_append_left _ hr, rfl⟩⟩
  · refine ⟨List.Subset.refl _, fun r hr => ?_⟩
    obtain ⟨r', hr', hgen⟩ := retire_extends c.next.purpose hr
    exact ⟨r', List.mem_append_left _ hr', hgen⟩

theorem extends_backfilled (s : Hierarchy) (config : Cfg.Config) (purpose : String) :
    s.Extends (s.backfilled config purpose) := by
  unfold Hierarchy.backfilled
  simp only
  split_ifs
  · exact .of_same rfl (List.Subset.refl _)
  · exact .of_same rfl (List.subset_append_left _ _)
  · exact .of_same rfl (List.Subset.refl _)

theorem extends_of_exec
    {s s' : Hierarchy}
    {x : HierarchyStep}
    (hx : s.exec oidText parse x = some s') :
    s.Extends s' := by
  rcases Hierarchy.exec_cases hx with ⟨config, purpose, rfl⟩ | ⟨_, _, _, _, _, hadd⟩ | ⟨_, _, hrenew⟩ |
    ⟨c, _, _, _, _, _, rfl⟩ | ⟨c, _, rfl⟩ | ⟨c, rfl⟩
  · exact extends_backfilled s config purpose
  · obtain ⟨_, _, rfl⟩ := Hierarchy.adding_eq hadd
    exact .of_same rfl (List.Subset.refl _)
  · obtain ⟨_, _, _, _, _, rfl⟩ := Hierarchy.renewing_eq hrenew
    exact .of_same rfl (List.Subset.refl _)
  · exact .of_same rfl (List.Subset.refl _)
  · exact ⟨(extends_recorded s c).purposes, (extends_recorded s c).rows⟩
  · exact .of_same rfl (List.Subset.refl _)

theorem extends_of_run
    {G : Guard Hierarchy HierarchyStep}
    {s t : Hierarchy}
    {ks : List HierarchyStep}
    (h : (hierarchy oidText parse).Run G s ks t) :
    s.Extends t := by
  induction h with
  | nil s => exact .of_same rfl (List.Subset.refl _)
  | cons _ hx _ ih =>
      have hstep := extends_of_exec hx
      refine ⟨fun row hrow => ih.purposes (hstep.purposes hrow), fun r hr => ?_⟩
      obtain ⟨r', hr', hgen⟩ := hstep.rows r hr
      obtain ⟨r'', hr'', hgen'⟩ := ih.rows r' hr'
      exact ⟨r'', hr'', hgen'.trans hgen⟩

/-- The generation a leaf is issued by is on record, with its slug. -/
theorem row_of_activeGen
    (hoid : Cfg.DottedDecimal oidText)
    {s : Hierarchy}
    (h : s.Contained oidText)
    {config : Cfg.Config}
    (hkeys : ∀ k ca, config.cas.find? k = some ca → ca.purpose = k)
    {row : PurposeRow}
    (hrow : row ∈ s.locked.purposes)
    (hca : config.cas.find? row.purpose = some (loadPurpose row)) :
    ∃ r ∈ s.rows, r.purpose = row.purpose ∧
      r.slug = (activeGen s.rows config row.purpose).slug := by
  unfold activeGen
  split
  · rename_i r hr
    obtain ⟨hmem, hboth⟩ := List.mem_filter.mp (mem_of_newest hr)
    simp only [Bool.and_eq_true, beq_iff_eq] at hboth
    exact ⟨r, hmem, hboth.1, rfl⟩
  · obtain ⟨r, hr, hpurpose, hslug⟩ := h.first row hrow
    obtain ⟨ca, _, hvalid, rfl⟩ := h.valid row hrow
    have hsection := (loadPurpose_valid hoid hvalid).2.1
    exact ⟨r, hr, hpurpose, hslug.trans (hsection.symm.trans
      (configGen_slug hkeys hvalid.notRoot hca).symm)⟩

/-- **What an issuer may issue.**  In a run whose ceremonies write over no other section's
file: what a leaf may be used for and its policies are among those of its issuer, and those
policies stand there once.  The sections are read first, then the generation is looked up,
then its file is read, and others may act in between. -/
theorem leaf_within_issuer
    (hoid : Cfg.DottedDecimal oidText)
    {s₁ s₂ s₃ : Hierarchy}
    {ks ls : List HierarchyStep}
    (hs : (hierarchy oidText parse).Reachable KeepsFiles s₁)
    (hks : (hierarchy oidText parse).Run KeepsFiles s₁ ks s₂)
    (hls : (hierarchy oidText parse).Run KeepsFiles s₂ ls s₃) :
    ∀ config name ca cert, loadConfig s₁.locked = some config →
      issuerFor config name = some ca →
      s₃.pem (activeGen s₂.rows config ca.purpose).slug = some cert →
      ∀ lib signer leaf,
        ((∃ cn extra key, issueLeaf lib config signer name cn extra key = some leaf) ∨
          ∃ r, signLeaf lib config signer name r = some leaf) →
        leaf.Within cert := by
  intro config name ca cert hconfig hissuer hcert lib signer leaf hleaf
  have h₁ := contained_of_reachable hoid hs
  have h₂ := contained_of_reachable hoid (hs.run hks)
  have h₃ := contained_of_reachable hoid ((hs.run hks).run hls)
  have hvalues : ∀ row ∈ s₁.locked.purposes, (loadPurpose row).purpose = row.purpose := by
    intro row hrow
    obtain ⟨held, _, hvalid, rfl⟩ := h₁.valid row hrow
    exact (loadPurpose_valid hoid hvalid).1
  have hkeys : ∀ k ca, config.cas.find? k = some ca → ca.purpose = k := by
    intro k ca hfind
    obtain ⟨row, _, hpurpose, rfl⟩ := row_of_loadConfig hconfig hfind
    exact hpurpose
  obtain ⟨⟨k, _⟩, hentry, rfl⟩ := List.mem_map.mp (List.mem_of_find?_eq_some hissuer)
  have hfind := OrderedMap.mem_entries_iff.mp hentry
  obtain ⟨row, hrow, hpurpose, rfl⟩ := row_of_loadConfig hconfig hfind
  rw [hvalues row hrow] at hpurpose
  rw [← hpurpose] at hfind
  simp only [hvalues row hrow] at hcert
  obtain ⟨r, hr, hrpurpose, hslug⟩ :=
    row_of_activeGen hoid h₂ hkeys ((extends_of_run hks).purposes hrow) hfind
  obtain ⟨r', hr', hgen⟩ := (extends_of_run hls).rows r hr
  rw [← hslug, ← show r'.slug = r.slug from congrArg CaGen.slug hgen] at hcert
  have hrow₃ := (extends_of_run hls).purposes ((extends_of_run hks).purposes hrow)
  have hbears := h₃.files row hrow₃ r' hr' ((congrArg CaGen.purpose hgen).trans hrpurpose) cert hcert
  exact within_of_bears hissuer hbears hleaf

end Runs

section Sample

/-- A file that declares `[ca.vpn]` with the slug prefix that `[ca.tls]` is locked with. -/
def vpnText : String :=
  "[pki]\norg_name = \"Example Ltd\"\ncountry_code = \"CA\"\n" ++
    "repository_host = \"pki.example.ca:8080\"\n\n" ++
    "[root]\ncn = \"Example Root\"\ncurve = \"secp384r1\"\ndigest = \"SHA-384\"\n" ++
    "valid_days = 7300\nslug_prefix = \"root-r\"\n\n" ++
    "[ca.vpn]\ncn = \"Example VPN\"\ncurve = \"secp256r1\"\ndigest = \"SHA-256\"\n" ++
    "valid_days = 1825\nslug_prefix = \"tls-e\"\nprofiles = [\"client\"]\n" ++
    "ee_curve = \"secp256r1\"\nee_digest = \"SHA-256\"\nee_valid_days = 90\n"

/-- What it says. -/
def vpnTable : Toml.Table :=
  [ ("ca",
      .table
        [ ("vpn",
            .table
              [ ("cn", .string "Example VPN"),
                ("curve", .string "secp256r1"),
                ("digest", .string "SHA-256"),
                ("ee_curve", .string "secp256r1"),
                ("ee_digest", .string "SHA-256"),
                ("ee_valid_days", .integer 90),
                ("profiles", .array [.string "client"]),
                ("slug_prefix", .string "tls-e"),
                ("valid_days", .integer 1825) ] false) ] false),
    ("pki",
      .table
        [ ("country_code", .string "CA"),
          ("org_name", .string "Example Ltd"),
          ("repository_host", .string "pki.example.ca:8080") ] false),
    ("root",
      .table
        [ ("cn", .string "Example Root"),
          ("curve", .string "secp384r1"),
          ("digest", .string "SHA-384"),
          ("slug_prefix", .string "root-r"),
          ("valid_days", .integer 7300) ] false) ]

/-- A parser that knows the two files. -/
def sampleFiles (text : String) : Except Cfg.ParseError Toml.Table :=
  if text = vpnText then .ok vpnTable else Cfg.sampleParse "Example Ltd" "Example Ltd" text

def vpnConfig : Cfg.Config :=
  (Cfg.declared Cfg.sampleOid vpnTable).resolved

set_option maxRecDepth 20000 in
theorem sampleText_ne_vpnText :
    Cfg.sampleText "Example Ltd" ≠ vpnText := by
  decide

theorem sampleFiles_load :
    load Cfg.sampleOid sampleFiles "yca.toml" (some (Cfg.sampleText "Example Ltd")) =
      .ok (Cfg.sampleConfig "Example Ltd") := by
  rw [← Cfg.sample_load "Example Ltd" Cfg.sample_errors]
  simp only [load, sampleFiles, if_neg sampleText_ne_vpnText]

/-- What `init` makes of the first file, with all its files written. -/
def tlsHierarchy : Hierarchy where
  locked := lock (Cfg.sampleConfig "Example Ltd")
  rows := firstRows (summary (Cfg.sampleConfig "Example Ltd"))
  caNames :=
    (Cfg.sampleConfig "Example Ltd").root.cn ::
      (Cfg.sampleConfig "Example Ltd").cas.values.map fun ca => ca.cn
  pem slug :=
    ((Cfg.sampleConfig "Example Ltd").cas.values.find? fun ca => ca.slug == slug).map fun ca =>
      mintCert (Cfg.sampleConfig "Example Ltd") ca ca.cn [1] "root-r1" [2]
  settled := []
  minted := []

theorem tlsHierarchy_init :
    (hierarchy Cfg.sampleOid sampleFiles).init tlsHierarchy := by
  refine ⟨_, _, _, sampleFiles_load, rfl, rfl, rfl, ?_, rfl, rfl⟩
  intro slug cert hcert
  obtain ⟨ca, hca, rfl⟩ := Option.map_eq_some_iff.mp hcert
  refine ⟨ca, List.mem_of_find?_eq_some hca, by simpa using List.find?_some hca, [1], [2], ?_⟩
  rfl

/-- `[ca.vpn]` is added. -/
def vpnCeremony : Option Ceremony :=
  (vpnConfig.cas.find? "vpn").map fun ca => ⟨vpnConfig, ca, ⟨"vpn", 1, ca.cn, ca.slug⟩, true⟩

def vpnLabels : List HierarchyStep :=
  .add "yca.toml" vpnText "vpn" ::
    vpnCeremony.toList.flatMap fun c => [.mint c [1] "root-r1" [3], .record c]

/-- `tls` issues a server certificate from the certificate of `vpn`, which is for clients. -/
theorem leaf_beyond_issuer :
    ¬ ∀ s, (hierarchy Cfg.sampleOid sampleFiles).Reachable Guard.free s →
      ∀ config name ca cert, loadConfig s.locked = some config →
        issuerFor config name = some ca →
        s.pem (activeGen s.rows config ca.purpose).slug = some cert →
        ∀ lib signer leaf,
          ((∃ cn extra key, issueLeaf lib config signer name cn extra key = some leaf) ∨
            ∃ r, signLeaf lib config signer name r = some leaf) →
          leaf.Within cert := by
  intro hall
  have h :
      ((hierarchy Cfg.sampleOid sampleFiles).follow Guard.free tlsHierarchy vpnLabels).any
        (fun s => (loadConfig s.locked).any fun config =>
          (issuerFor config "server").any fun ca =>
            (s.pem (activeGen s.rows config ca.purpose).slug).any fun cert =>
              (issueLeaf ⟨some, some⟩ config ⟨cert.subjectDn, [3], ca.slug⟩ "server" "a.ca" []
                [4]).any fun leaf => !leaf.usages.all fun oid => cert.usages.contains oid) =
        true := by
    decide +kernel
  obtain ⟨s, hrun, hcheck⟩ := Automaton.Run.exists_of_follow h
  simp only [Option.any_eq_true] at hcheck
  obtain ⟨config, hconfig, ca, hissuer, cert, hcert, leaf, hleaf, hbeyond⟩ := hcheck
  have hwithin := hall s (Automaton.Reachable.of_run tlsHierarchy_init hrun) config "server" ca cert
    hconfig hissuer hcert _ _ leaf (Or.inl ⟨_, _, _, hleaf⟩)
  rw [Bool.not_eq_true', List.all_eq_false] at hbeyond
  obtain ⟨oid, hoid, hnot⟩ := hbeyond
  exact hnot (List.contains_iff_mem.mpr (hwithin.usages hoid))

/-- `tls` is renewed, beside whoever issues by it. -/
def tlsCeremony : Option Ceremony :=
  (tlsHierarchy.renewing "tls" "Example TLS 2").bind fun s => s.settled.head?

def tlsLabels : List HierarchyStep :=
  .renew "tls" "Example TLS 2" ::
    tlsCeremony.toList.flatMap fun c => [.mint c [1] "root-r1" [5], .record c]

/-- The sections are read, then the CA is renewed, and the leaf is issued by its second
generation. -/
theorem leaf_within_issuer_sample :
    ∃ s config cert leaf,
      (hierarchy Cfg.sampleOid sampleFiles).Run KeepsFiles tlsHierarchy tlsLabels s ∧
      loadConfig tlsHierarchy.locked = some config ∧
      s.pem "tls-e2" = some cert ∧
      issueLeaf ⟨some, some⟩ config ⟨cert.subjectDn, [5], "tls-e2"⟩ "server" "a.ca" [] [4] =
        some leaf ∧
      leaf.Within cert := by
  have h :
      ((hierarchy Cfg.sampleOid sampleFiles).follow KeepsFiles tlsHierarchy tlsLabels).any
        (fun s => (loadConfig tlsHierarchy.locked).any fun config =>
          (issuerFor config "server").any fun ca =>
            (activeGen s.rows config ca.purpose).slug == "tls-e2" &&
              (s.pem "tls-e2").any fun cert =>
                (issueLeaf ⟨some, some⟩ config ⟨cert.subjectDn, [5], "tls-e2"⟩ "server" "a.ca" []
                  [4]).isSome) = true := by
    decide +kernel
  obtain ⟨s, hrun, hcheck⟩ := Automaton.Run.exists_of_follow h
  simp only [Option.any_eq_true, Bool.and_eq_true, beq_iff_eq] at hcheck
  obtain ⟨config, hconfig, ca, hissuer, hslug, cert, hcert, hsome⟩ := hcheck
  obtain ⟨leaf, hleaf⟩ := Option.isSome_iff_exists.mp hsome
  refine ⟨s, config, cert, leaf, hrun, hconfig, hcert, hleaf, ?_⟩
  have hs := Automaton.Reachable.of_init (G := KeepsFiles) tlsHierarchy_init
  exact leaf_within_issuer Cfg.sampleOid_dotted hs hrun (.nil _) config "server" ca cert hconfig
    hissuer (hslug ▸ hcert) _ _ leaf (Or.inl ⟨_, _, _, hleaf⟩)

end Sample

end Bridge
end Yca
