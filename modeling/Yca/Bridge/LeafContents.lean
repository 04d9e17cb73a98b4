import Mathlib.Data.Finset.Union
import Yca.Ca.Request
import Yca.Cfg.Config

/-!
# One leaf, two ways in

`issue_ee` takes the name and the subjectAltName entries of a leaf from its
arguments, `sign_csr` takes them from what Botan reports of a request.  Each has its
own copy of the subject and SAN rules of the profile; the extensions and the subject
are built by functions they share.

For the same name and entries the two accept and refuse alike, and what they put
into the certificate is the same.
-/

namespace Yca
namespace Bridge

open Yca.Core Ca
open Cfg (Pki findProfile)

section Names

/-- `San::Type`. -/
inductive SanType
  | dns
  | email
  | ip
  | uri
  deriving DecidableEq

/-- `San`: one `--san`. -/
structure San where
  type : SanType
  value : String
  deriving DecidableEq

/-- One part of an IPv4 address, without leading zeros. -/
def octet (part : List Char) : Option Nat :=
  if part.isEmpty || decide (part.length > 3) then none
  else if decide (part.length > 1) && part.head? == some '0' then none
  else if !part.all Acme.isDigit then none
  else
    let v := part.foldl (fun v c => v * 10 + (c.toNat - 48)) 0
    if v > 255 then none else some v

/-- The loop of `parse_ipv4`, with the parts that are left. -/
def ipv4Loop : Nat → UInt32 → List Char → Option UInt32
  | 0, result, _ => some result
  | left + 1, result, s =>
      let part := s.takeWhile fun c => c != '.'
      if (left == 0) != (part.length == s.length) then none
      else
        match octet part with
        | none => none
        | some v => ipv4Loop left ((result <<< 8) ||| UInt32.ofNat v) (s.drop (part.length + 1))

/-- `parse_ipv4`. -/
def parseIpv4 (s : String) : Option UInt32 :=
  ipv4Loop 4 0 s.toList

example : parseIpv4 "10.0.0.255" = some 167772415 := by decide

example : parseIpv4 "10.0.00.1" = none := by decide

/-- An entry of an `AlternativeName`. -/
inductive SanEntry
  | dns (name : String)
  | email (mailbox : String)
  | ipv4 (address : UInt32)
  | uri (text : String)
  deriving DecidableEq

/-- `AlternativeName`: its sets in one. -/
abbrev AlternativeName := Finset SanEntry

/-- What Botan makes of an entry that is added: nothing of an empty text, the
canonical form of any other, and an error where there is none. -/
def canonical (lib : Parsers) : SanEntry → Option AlternativeName
  | .dns name => if name = "" then some ∅ else (sanDns name).map fun d => {.dns d}
  | .email mailbox =>
      if mailbox = "" then some ∅ else (lib.mailbox mailbox).map fun m => {.email m}
  | .ipv4 address => some {.ipv4 address}
  | .uri text => if text = "" then some ∅ else (lib.uri text).map fun u => {.uri u}

/-- `add_dns`, `add_email`, `add_ipv4_address` and `add_uri`. -/
def addEntry (lib : Parsers) (an : AlternativeName) (e : SanEntry) : Option AlternativeName :=
  (canonical lib e).map fun new => an ∪ new

end Names

section Issue

/-- The entry of a `--san`; an address has to parse. -/
def San.entry (s : San) : Option SanEntry :=
  match s.type with
  | .dns => some (.dns s.value)
  | .email => some (.email s.value)
  | .ip => (parseIpv4 s.value).map SanEntry.ipv4
  | .uri => some (.uri s.value)

/-- The checks of one `--san`. -/
def San.valid (s : San) : Bool :=
  match s.type with
  | .dns => dnsSafe s.value
  | .email => asciiGraphic s.value
  | .ip => true
  | .uri => validUriSan s.value

/-- The subject rules of `issue_ee`: the entries put before the given ones. -/
def issueSubject (profile : Profile) (cn : String) (extra : List San) : Option (List San) :=
  match profile.subject with
  | .dnsCn => if dnsSafe cn then some [⟨.dns, cn⟩] else none
  | .requireSan => if extra.isEmpty then none else some []
  | .emailMatchingCn =>
      if extra.any fun s => s.type == .email && s.value == cn then some [] else none

/-- One step of the loop that collects the entries. -/
def addSan (lib : Parsers) (an : AlternativeName) (s : San) : Option AlternativeName :=
  match s.entry with
  | none => none
  | some e => addEntry lib an e

/-- The subject and SAN rules of `issue_ee`, and the subjectAltName it builds. -/
def issueNames
    (lib : Parsers)
    (profile : Profile)
    (cn : String)
    (extra : List San) : Option AlternativeName :=
  match issueSubject profile cn extra with
  | none => none
  | some first =>
      let sans := first ++ extra
      if !sans.all San.valid || decide ((sans.countP fun s => s.type == .uri) > 1) then none
      else sans.foldlM (addSan lib) ∅

end Issue

section Sign

/-- `PKCS10_Request::subject_alt_name`: the contents of its sets, in order. -/
structure ReportedSans where
  dns : List String
  email : List String
  ipv4 : List UInt32
  uris : List String
  /-- How many entries of other types there are. -/
  others : Nat
  dns_nodup : dns.Nodup
  email_nodup : email.Nodup
  ipv4_nodup : ipv4.Nodup
  uris_nodup : uris.Nodup

/-- What `sign_csr` supports of them, set after set. -/
def ReportedSans.entries (r : ReportedSans) : List SanEntry :=
  r.dns.map SanEntry.dns ++ r.email.map SanEntry.email ++ r.ipv4.map SanEntry.ipv4 ++
    r.uris.map SanEntry.uri

/-- A request: the attributes of its subject, the extensions it asks for, what Botan
reports as its subjectAltName, and its public key. -/
structure SigningRequest where
  subject : List (String × String)
  extensions : List (String × List UInt8)
  sans : ReportedSans
  publicKey : List UInt8

/-- The common names of the subject. -/
def SigningRequest.commonNames (r : SigningRequest) : List String :=
  (r.subject.filter fun a => a.1 == "X520.CommonName").map Prod.snd

/-- The subject rules of `sign_csr`. -/
def signSubject
    (lib : Parsers)
    (profile : Profile)
    (cn : String)
    (sans : ReportedSans) : Option AlternativeName :=
  match profile.subject with
  | .dnsCn => if dnsSafe cn then addEntry lib ∅ (.dns cn) else none
  | .requireSan =>
      if sans.dns.length + sans.email.length + sans.ipv4.length + sans.uris.length = 0 then none
      else some ∅
  | .emailMatchingCn => if sans.email.contains cn then some ∅ else none

/-- The subject and SAN rules of `sign_csr`: the common name it derives and the
subjectAltName it builds. -/
def requestNames
    (lib : Parsers)
    (profile : Profile)
    (r : SigningRequest) : Option (String × AlternativeName) :=
  match requestCn r.commonNames r.sans.dns with
  | none => none
  | some cn =>
      if !r.sans.dns.all dnsSafe || !r.sans.email.all asciiGraphic ||
          decide (r.sans.uris.length > 1) || !r.sans.uris.all validUriSan then none
      else
        match signSubject lib profile cn r.sans with
        | none => none
        | some an => (r.sans.entries.foldlM (addEntry lib) an).map fun san => (cn, san)

end Sign

section Certificate

/-- The extensions of a leaf. -/
inductive Extension
  | basicConstraints (ca : Bool)
  | keyUsage (digitalSignature keyAgreement : Bool)
  | extendedKeyUsage (oids : List String)
  | authorityKeyId (id : List UInt8)
  /-- The digest of the public key. -/
  | subjectKeyId (publicKey : List UInt8) (digest : String)
  | subjectAltName (names : AlternativeName)
  | authorityInfoAccess (ocsp caIssuers : List String)
  | crlDistributionPoints (uris : List String)
  | certificatePolicies (oids : List String)
  deriving DecidableEq

/-- `profile::Def::eku`. -/
def eku : Profile → String
  | .server => "1.3.6.1.5.5.7.3.1"
  | .client => "1.3.6.1.5.5.7.3.2"
  | .email => "1.3.6.1.5.5.7.3.4"

/-- `profile::Def::key_agreement`. -/
def keyAgreement : Profile → Bool
  | .email => true
  | _ => false

/-- `X509_DN::add_attribute`: an empty value is ignored. -/
def addAttribute (dn : List (String × String)) (key value : String) : List (String × String) :=
  if value = "" then dn else dn ++ [(key, value)]

/-- `subject_dn`. -/
def subjectDn (pki : Pki) (cn : String) (simple : Bool) : List (String × String) :=
  let dn :=
    if simple then []
    else addAttribute (addAttribute [] "X520.Country" pki.countryCode)
      "X520.Organization" pki.orgName
  addAttribute dn "X520.CommonName" cn

/-- The generation that signs: its subject, its key id and the slug of its files. -/
structure Signer where
  subjectDn : List (String × String)
  subjectKeyId : List UInt8
  slug : String

/-- `add_policies`: left out where there are none. -/
def addPolicies (oids : List String) : List (Extension × Bool) :=
  if oids.isEmpty then [] else [(.certificatePolicies oids, false)]

/-- `add_ee_pointer_extensions`. -/
def eePointerExtensions
    (config : Cfg.Config)
    (ca : Cfg.SigningCa)
    (profile slug : String) : List (Extension × Bool) :=
  let base := "http://" ++ config.pki.repositoryHost
  [ (.authorityInfoAccess [] [base ++ "/" ++ slug ++ ".crt"], false),
    (.crlDistributionPoints [base ++ "/" ++ slug ++ ".crl"], false) ] ++
    match ca.policies.find? profile with
    | none => []
    | some oids => addPolicies oids

/-- `ee_extensions`, each with its criticality. -/
def eeExtensions
    (config : Cfg.Config)
    (ca : Cfg.SigningCa)
    (name : String)
    (profile : Profile)
    (signer : Signer)
    (publicKey : List UInt8)
    (digest : String)
    (san : AlternativeName) : List (Extension × Bool) :=
  [ (.basicConstraints false, true),
    (.keyUsage true (keyAgreement profile), true),
    (.extendedKeyUsage [eku profile], false),
    (.authorityKeyId signer.subjectKeyId, false),
    (.subjectKeyId publicKey digest, false),
    (.subjectAltName san, false) ] ++
    eePointerExtensions config ca name signer.slug

/-- What `make_cert` is given, but for the times and the serial. -/
structure Leaf where
  issuerDn : List (String × String)
  subjectDn : List (String × String)
  publicKey : List UInt8
  digest : String
  extensions : List (Extension × Bool)
  deriving DecidableEq

/-- `issuer_for`. -/
def issuerFor (config : Cfg.Config) (profile : String) : Option Cfg.SigningCa :=
  config.cas.values.find? fun ca => ca.profiles.contains profile

/-- The leaf `issue_ee` makes for a key it generated. -/
def issueLeaf
    (lib : Parsers)
    (config : Cfg.Config)
    (signer : Signer)
    (name cn : String)
    (extra : List San)
    (publicKey : List UInt8) : Option Leaf :=
  match findProfile name with
  | none => none
  | some profile =>
      if profile.csrOnly then none
      else
        match issuerFor config name with
        | none => none
        | some ca =>
            match issueNames lib profile cn extra with
            | none => none
            | some an =>
                some
                  { issuerDn := signer.subjectDn
                    subjectDn := subjectDn config.pki cn ca.simpleDn
                    publicKey := publicKey
                    digest := ca.eeDigest
                    extensions :=
                      eeExtensions config ca name profile signer publicKey ca.eeDigest an }

/-- The leaf `sign_csr` makes of a request whose key passed its policy. -/
def signLeaf
    (lib : Parsers)
    (config : Cfg.Config)
    (signer : Signer)
    (name : String)
    (r : SigningRequest) : Option Leaf :=
  match findProfile name with
  | none => none
  | some profile =>
      match issuerFor config name with
      | none => none
      | some ca =>
          match requestNames lib profile r with
          | none => none
          | some (cn, an) =>
              some
                { issuerDn := signer.subjectDn
                  subjectDn := subjectDn config.pki cn ca.simpleDn
                  publicKey := r.publicKey
                  digest := ca.eeDigest
                  extensions :=
                    eeExtensions config ca name profile signer r.publicKey ca.eeDigest an }

end Certificate

section Agreement

variable {lib : Parsers}

/-- What collecting entries leaves: all of them had a canonical form, and these are
what was added. -/
theorem foldlM_addEntry_eq_some
    {l : List SanEntry}
    {an out : AlternativeName} :
    l.foldlM (addEntry lib) an = some out ↔
      (∀ e ∈ l, (canonical lib e).isSome = true) ∧
        ∀ x, x ∈ out ↔ x ∈ an ∨ ∃ e ∈ l, ∃ new, canonical lib e = some new ∧ x ∈ new := by
  induction l generalizing an with
  | nil =>
      simp only [List.foldlM_nil, Option.pure_def, Option.some.injEq, List.not_mem_nil,
        false_and, exists_false, or_false, IsEmpty.forall_iff, implies_true, true_and]
      constructor
      · rintro rfl
        exact fun x => Iff.rfl
      · intro h
        exact Finset.ext fun x => (h x).symm
  | cons e l ih =>
      rw [List.foldlM_cons]
      cases hnew : canonical lib e with
      | none => simp [addEntry, hnew]
      | some new =>
          simp only [addEntry, hnew, Option.map_some, Option.bind_eq_bind, Option.bind_some]
          rw [ih]
          simp only [List.forall_mem_cons, List.exists_mem_cons_iff, hnew, Option.isSome_some,
            true_and, Option.some.injEq, exists_eq_left', Finset.mem_union, or_assoc]

/-- What was collected depends on the entries, not on their order or number. -/
theorem foldlM_addEntry_congr
    {l l' : List SanEntry}
    (h : ∀ e, e ∈ l ↔ e ∈ l')
    (an : AlternativeName) :
    l.foldlM (addEntry lib) an = l'.foldlM (addEntry lib) an := by
  refine Option.ext ?_
  intro out
  rw [foldlM_addEntry_eq_some, foldlM_addEntry_eq_some]
  simp only [h]

/-- Arguments whose addresses parse are collected entry by entry. -/
theorem foldlM_addSan
    {sans : List San}
    (hparse : ∀ s ∈ sans, s.entry.isSome = true)
    (an : AlternativeName) :
    sans.foldlM (addSan lib) an = (sans.filterMap San.entry).foldlM (addEntry lib) an := by
  induction sans generalizing an with
  | nil => rfl
  | cons s sans ih =>
      obtain ⟨e, he⟩ := Option.isSome_iff_exists.mp (hparse s List.mem_cons_self)
      have hrest := ih fun s' hs' => hparse s' (List.mem_cons_of_mem _ hs')
      rw [List.filterMap_cons_some he, List.foldlM_cons, List.foldlM_cons]
      have hstep : addSan lib an s = addEntry lib an e := by
        simp [addSan, he]
      rw [hstep]
      cases addEntry lib an e with
      | none => rfl
      | some new => exact hrest new

end Agreement

section Reported

/-- A request reports the given entries, as a set. -/
def Reports (r : ReportedSans) (sans : List San) : Prop :=
  ∀ e, e ∈ r.entries ↔ ∃ s ∈ sans, s.entry = some e

/-- The checks of one entry. -/
def SanEntry.valid : SanEntry → Bool
  | .dns name => dnsSafe name
  | .email mailbox => asciiGraphic mailbox
  | .ipv4 _ => true
  | .uri text => validUriSan text

theorem San.valid_eq
    {s : San}
    {e : SanEntry}
    (h : s.entry = some e) :
    s.valid = e.valid := by
  obtain ⟨type, value⟩ := s
  cases type with
  | ip =>
      obtain ⟨v, _, rfl⟩ := Option.map_eq_some_iff.mp h
      rfl
  | _ =>
      obtain rfl := Option.some.inj h
      rfl

@[simp] theorem ReportedSans.mem_entries (r : ReportedSans) (e : SanEntry) :
    e ∈ r.entries ↔
      match e with
      | .dns name => name ∈ r.dns
      | .email mailbox => mailbox ∈ r.email
      | .ipv4 address => address ∈ r.ipv4
      | .uri text => text ∈ r.uris := by
  cases e <;> simp [ReportedSans.entries]

variable {r : ReportedSans} {sans : List San}

/-- The arguments pass their checks when what the request reports does. -/
theorem Reports.all_valid
    (h : Reports r sans)
    (hparse : ∀ s ∈ sans, s.entry.isSome = true) :
    sans.all San.valid =
      (r.dns.all dnsSafe && r.email.all asciiGraphic && r.uris.all validUriSan) := by
  have hentries : sans.all San.valid = true ↔ ∀ e ∈ r.entries, e.valid = true := by
    rw [List.all_eq_true]
    constructor
    · intro hall e he
      obtain ⟨s, hs, hse⟩ := (h e).mp he
      rw [← San.valid_eq hse]
      exact hall s hs
    · intro hall s hs
      obtain ⟨e, he⟩ := Option.isSome_iff_exists.mp (hparse s hs)
      rw [San.valid_eq he]
      exact hall e ((h e).mpr ⟨s, hs, he⟩)
  rw [Bool.eq_iff_iff, hentries]
  simp only [Bool.and_eq_true, List.all_eq_true]
  constructor
  · intro hall
    refine ⟨⟨?_, ?_⟩, ?_⟩
    · exact fun d hd => hall (.dns d) (by simpa using hd)
    · exact fun m hm => hall (.email m) (by simpa using hm)
    · exact fun u hu => hall (.uri u) (by simpa using hu)
  · rintro ⟨⟨hdns, hemail⟩, huri⟩ e he
    rw [ReportedSans.mem_entries] at he
    cases e with
    | dns d => exact hdns d he
    | email m => exact hemail m he
    | ipv4 v => rfl
    | uri u => exact huri u he

/-- The arguments have as many URIs as the request reports. -/
theorem Reports.countP_uri
    (h : Reports r sans)
    (hnodup : sans.Nodup) :
    (sans.countP fun s => s.type == .uri) = r.uris.length := by
  have hvalues : ((sans.filter fun s => s.type == .uri).map San.value).Nodup := by
    refine List.Nodup.map_on ?_ (hnodup.filter _)
    rintro ⟨type, value⟩ hs ⟨type', value'⟩ hs' heq
    have htype : type = .uri := by simpa using (List.mem_filter.mp hs).2
    have htype' : type' = .uri := by simpa using (List.mem_filter.mp hs').2
    have heq : value = value' := heq
    rw [htype, htype', heq]
  have hsame : ∀ u, u ∈ (sans.filter fun s => s.type == .uri).map San.value ↔ u ∈ r.uris := by
    intro u
    have hentry : u ∈ r.uris ↔ ∃ s ∈ sans, s.entry = some (.uri u) := by
      rw [← h, ReportedSans.mem_entries]
    rw [hentry, List.mem_map]
    constructor
    · rintro ⟨⟨type, value⟩, hs, rfl⟩
      obtain ⟨hs, htype⟩ := List.mem_filter.mp hs
      obtain rfl : type = .uri := by simpa using htype
      exact ⟨_, hs, rfl⟩
    · rintro ⟨⟨type, value⟩, hs, hse⟩
      cases type with
      | uri =>
          have hvalue : value = u := by simpa [San.entry] using hse
          exact ⟨_, List.mem_filter.mpr ⟨hs, rfl⟩, hvalue⟩
      | ip => simp [San.entry] at hse
      | _ => simp [San.entry] at hse
  rw [List.countP_eq_length_filter, ← ((List.perm_ext_iff_of_nodup hvalues r.uris_nodup).mpr hsame).length_eq,
    List.length_map]

/-- There are no arguments where the request reports nothing. -/
theorem Reports.isEmpty
    (h : Reports r sans)
    (hparse : ∀ s ∈ sans, s.entry.isSome = true) :
    sans.isEmpty =
      decide (r.dns.length + r.email.length + r.ipv4.length + r.uris.length = 0) := by
  have hlength : r.entries.length =
      r.dns.length + r.email.length + r.ipv4.length + r.uris.length := by
    simp [ReportedSans.entries, Nat.add_assoc]
  rw [← hlength, Bool.eq_iff_iff, List.isEmpty_iff, decide_eq_true_iff,
    List.length_eq_zero_iff]
  constructor
  · rintro rfl
    refine List.eq_nil_iff_forall_not_mem.mpr ?_
    intro e he
    obtain ⟨s, hs, _⟩ := (h e).mp he
    exact absurd hs List.not_mem_nil
  · intro hnil
    refine List.eq_nil_iff_forall_not_mem.mpr ?_
    intro s hs
    obtain ⟨e, he⟩ := Option.isSome_iff_exists.mp (hparse s hs)
    have hmem := (h e).mpr ⟨s, hs, he⟩
    rw [hnil] at hmem
    exact absurd hmem List.not_mem_nil

/-- Only an address can fail to be an entry. -/
theorem entry_isSome
    (hip : ∀ s ∈ sans, s.type = .ip → (parseIpv4 s.value).isSome = true) :
    ∀ s ∈ sans, s.entry.isSome = true := by
  rintro ⟨type, value⟩ hs
  cases type with
  | ip => simpa [San.entry] using hip _ hs rfl
  | _ => rfl

end Reported

section Results

variable {lib : Parsers} {profile : Profile} {cn : String} {sans : List San} {r : SigningRequest}

/-- The rules of `sign_csr` are those of `issue_ee`, and the two build the same
subjectAltName. -/
theorem requestNames_eq
    (hissuable : profile.csrOnly = false)
    (hnodup : sans.Nodup)
    (hip : ∀ s ∈ sans, s.type = .ip → (parseIpv4 s.value).isSome = true)
    (hcn : r.commonNames = [cn])
    (hreports : Reports r.sans sans) :
    requestNames lib profile r = (issueNames lib profile cn sans).map fun san => (cn, san) := by
  have hparse := entry_isSome hip
  have hvalid := hreports.all_valid hparse
  have hcount := hreports.countP_uri hnodup
  have hmem : ∀ e, e ∈ r.sans.entries ↔ e ∈ sans.filterMap San.entry := by
    intro e
    rw [hreports e, List.mem_filterMap]
  -- the checks of the two paths, which differ in order only
  have hchecks : (!sans.all San.valid || decide ((sans.countP fun s => s.type == .uri) > 1)) =
      (!r.sans.dns.all dnsSafe || !r.sans.email.all asciiGraphic ||
        decide (r.sans.uris.length > 1) || !r.sans.uris.all validUriSan) := by
    rw [hvalid, hcount]
    cases r.sans.dns.all dnsSafe <;> cases r.sans.email.all asciiGraphic <;>
      cases r.sans.uris.all validUriSan <;> simp
  unfold requestNames issueNames
  rw [hcn]
  simp only [requestCn]
  rw [← hchecks]
  cases profile with
  | email => simp [Profile.csrOnly] at hissuable
  | client =>
      simp only [issueSubject, signSubject, Profile.subject]
      rw [hreports.isEmpty hparse]
      simp only [decide_eq_true_eq]
      split_ifs with hbad hempty hempty
      · rfl
      · simp [hbad]
      · rfl
      · simp only [List.nil_append, hbad, if_false, Bool.false_eq_true]
        rw [foldlM_addSan hparse, foldlM_addEntry_congr hmem]
  | server =>
      simp only [issueSubject, signSubject, Profile.subject]
      by_cases hdns : dnsSafe cn = true
      · have hfirst : (!((⟨.dns, cn⟩ : San) :: sans).all San.valid ||
            decide ((((⟨.dns, cn⟩ : San) :: sans).countP fun s => s.type == .uri) > 1)) =
            (!sans.all San.valid || decide ((sans.countP fun s => s.type == .uri) > 1)) := by
          simp [San.valid, hdns]
        have hall : ∀ s ∈ (⟨.dns, cn⟩ : San) :: sans, s.entry.isSome = true := by
          rw [List.forall_mem_cons]
          exact ⟨rfl, hparse⟩
        simp only [hdns, if_true, List.singleton_append]
        rw [hfirst]
        split_ifs with hbad
        · rfl
        · rw [foldlM_addSan hall,
            List.filterMap_cons_some (show San.entry ⟨.dns, cn⟩ = some (.dns cn) from rfl),
            List.foldlM_cons]
          cases addEntry lib ∅ (.dns cn) with
          | none => rfl
          | some an =>
              simp only [Option.bind_eq_bind, Option.bind_some]
              rw [foldlM_addEntry_congr hmem]
      · have hdns : dnsSafe cn = false := by simpa using hdns
        simp [hdns]

/-- For every profile that is issued from arguments at all, and for one name and one
set of entries, `issue_ee` and `sign_csr` accept alike and make the same leaf.  It
depends on nothing else of the request. -/
theorem leaf_contents_agree
    (lib : Parsers)
    (config : Cfg.Config)
    (signer : Signer)
    {name : String}
    (hprofile : findProfile name = some profile)
    (hissuable : profile.csrOnly = false)
    (hnodup : sans.Nodup)
    (hip : ∀ s ∈ sans, s.type = .ip → (parseIpv4 s.value).isSome = true)
    (hcn : r.commonNames = [cn])
    (hreports : Reports r.sans sans) :
    ((requestNames lib profile r).isSome = (issueNames lib profile cn sans).isSome) ∧
      signLeaf lib config signer name r =
        issueLeaf lib config signer name cn sans r.publicKey ∧
      ∀ r' : SigningRequest,
        r'.commonNames = [cn] → Reports r'.sans sans → r'.publicKey = r.publicKey →
          signLeaf lib config signer name r' = signLeaf lib config signer name r := by
  have hleaf : ∀ r' : SigningRequest, r'.commonNames = [cn] → Reports r'.sans sans →
      signLeaf lib config signer name r' =
        issueLeaf lib config signer name cn sans r'.publicKey := by
    intro r' hcn' hreports'
    unfold signLeaf issueLeaf
    rw [hprofile]
    simp only [hissuable]
    cases issuerFor config name with
    | none => rfl
    | some ca =>
        simp only [requestNames_eq hissuable hnodup hip hcn' hreports']
        cases issueNames lib profile cn sans with
        | none => rfl
        | some an => rfl
  refine ⟨?_, hleaf r hcn hreports, ?_⟩
  · rw [requestNames_eq hissuable hnodup hip hcn hreports, Option.isSome_map]
  · intro r' hcn' hreports' hkey
    rw [hleaf r' hcn' hreports', hleaf r hcn hreports, hkey]

end Results

section Sample

/-- A configuration with one CA, which issues server certificates. -/
def tlsConfig : Cfg.Config where
  pki := ⟨"Example Ltd", "AT", "pki.example"⟩
  pkcs11 := ⟨"", ""⟩
  root := ⟨"Root R", "secp384r1", "SHA-384", 3650, "ca-r", "ca-r1", "internal", ""⟩
  cas :=
    OrderedMap.ofEntries
      [ ("tls",
          { cn := "CA E1"
            curve := "secp256r1"
            digest := "SHA-256"
            validDays := 1825
            slugPrefix := "ca-e"
            slug := "ca-e1"
            keyBackend := "internal"
            tokenLabel := ""
            purpose := "tls"
            profiles := ["server"]
            eeCurve := "secp256r1"
            eeDigest := "SHA-256"
            eeValidDays := 90
            simpleDn := true
            permittedDns := []
            permittedEmail := []
            policies := OrderedMap.empty }) ]
  unknown := []

/-- A request for a host name, a second one and an address, with an attribute and an
extension that nobody uses. -/
def hostRequest : SigningRequest where
  subject := [("X520.Organization", "Somebody"), ("X520.CommonName", "a.ca")]
  extensions := [("2.5.29.19", [0x30, 0x03, 0x01, 0x01, 0xFF])]
  sans := ⟨["a.ca", "b.ca"], [], [167772161], [], 1, by decide, by decide, by decide, by decide⟩
  publicKey := [0x04, 0x01]

theorem leaf_contents_agree_sample :
    (signLeaf ⟨some, some⟩ tlsConfig ⟨[("X520.CommonName", "CA E1")], [0x02], "ca-e1"⟩ "server"
        hostRequest).isSome = true ∧
      signLeaf ⟨some, some⟩ tlsConfig ⟨[("X520.CommonName", "CA E1")], [0x02], "ca-e1"⟩ "server"
          hostRequest =
        issueLeaf ⟨some, some⟩ tlsConfig ⟨[("X520.CommonName", "CA E1")], [0x02], "ca-e1"⟩
          "server" "a.ca" [⟨.ip, "10.0.0.1"⟩, ⟨.dns, "b.ca"⟩, ⟨.dns, "a.ca"⟩] [0x04, 0x01] := by
  refine ⟨by decide, ?_⟩
  have hreports : Reports hostRequest.sans
      [⟨.ip, "10.0.0.1"⟩, ⟨.dns, "b.ca"⟩, ⟨.dns, "a.ca"⟩] := by
    have hentries : [(⟨.ip, "10.0.0.1"⟩ : San), ⟨.dns, "b.ca"⟩, ⟨.dns, "a.ca"⟩].filterMap
        San.entry = [.ipv4 167772161, .dns "b.ca", .dns "a.ca"] := by
      decide
    intro e
    rw [← List.mem_filterMap, hentries]
    simp only [ReportedSans.entries, hostRequest, List.map_cons, List.map_nil, List.append_nil,
      List.cons_append, List.nil_append, List.mem_cons, List.not_mem_nil, or_false]
    tauto
  have hprofile : findProfile "server" = some .server := rfl
  exact (leaf_contents_agree ⟨some, some⟩ tlsConfig _ hprofile rfl (by decide) (by decide) rfl
    hreports).2.1

end Sample

end Bridge
end Yca
