import Yca.Bridge.LeafContents

/-!
# What an issuer may issue

The certificate of a signing CA carries the union of what its profiles need, computed from
its section when the certificate is minted (`signing_ca_extensions`, `ca_policies`).  A
leaf carries what its own profile needs, computed from the section when the leaf is issued.

A leaf is within every certificate that was minted for the section it is issued from.
-/

namespace Yca
namespace Bridge

open Yca.Core Ca
open Cfg (findProfile)

section Contents

/-- `profile::Def::ca_companion_eku`; empty where there is none. -/
def caCompanionEku : Profile → String
  | .email => "1.3.6.1.5.5.7.3.2"
  | _ => ""

/-- The usages `signing_ca_extensions` collects. -/
def signingCaEkus (ca : Cfg.SigningCa) : List String :=
  ca.profiles.flatMap fun name =>
    match findProfile name with
    | none => []
    | some p => eku p :: if caCompanionEku p = "" then [] else [caCompanionEku p]

/-- The body of the inner loop of `ca_policies`. -/
def addOnce (out : List String) (oid : String) : List String :=
  if out.contains oid then out else out ++ [oid]

/-- The body of its outer loop. -/
def collectPolicies
    (policies : OrderedMap String (List String))
    (out : List String)
    (profile : String) : List String :=
  match policies.find? profile with
  | none => out
  | some oids => oids.foldl addOnce out

/-- `SigningCa::ca_policies`. -/
def caPolicies (ca : Cfg.SigningCa) : List String :=
  ca.profiles.foldl (collectPolicies ca.policies) []

/-- The extensions of a CA certificate. -/
inductive CaExtension
  /-- CA:TRUE. -/
  | basicConstraints (pathLimit : Option Nat)
  /-- `Key_Constraints::ca_constraints`. -/
  | keyUsage
  | nameConstraints (permittedDns permittedEmail : List String)
  /-- One that leaves carry too. -/
  | common (e : Extension)
  deriving DecidableEq

/-- `add_signing_pointer_extensions`. -/
def signingPointerExtensions
    (config : Cfg.Config)
    (ca : Cfg.SigningCa)
    (rootSlug : String) : List (CaExtension × Bool) :=
  let base := "http://" ++ config.pki.repositoryHost
  [ (.common (.authorityInfoAccess [] [base ++ "/" ++ rootSlug ++ ".crt"]), false),
    (.common (.crlDistributionPoints [base ++ "/" ++ rootSlug ++ ".crl"]), false) ] ++
    (addPolicies (caPolicies ca)).map fun e => (.common e.1, e.2)

/-- `signing_ca_extensions`, each with its criticality. -/
def signingCaExtensions
    (config : Cfg.Config)
    (ca : Cfg.SigningCa)
    (rootKeyId : List UInt8)
    (rootSlug : String)
    (publicKey : List UInt8)
    (digest : String) : List (CaExtension × Bool) :=
  [ (.basicConstraints (some 0), true),
    (.keyUsage, true),
    (.common (.authorityKeyId rootKeyId), false),
    (.common (.subjectKeyId publicKey digest), false),
    (.common (.extendedKeyUsage (signingCaEkus ca)), false) ] ++
    (if !ca.permittedDns.isEmpty || !ca.permittedEmail.isEmpty then
      [(.nameConstraints ca.permittedDns ca.permittedEmail, true)]
    else []) ++
    signingPointerExtensions config ca rootSlug

/-- The certificate of a signing CA, but for times, serial and signature. -/
structure SigningCert where
  subjectDn : List (String × String)
  publicKey : List UInt8
  extensions : List (CaExtension × Bool)
  deriving DecidableEq

/-- What the root signs for a section: in `create`, and in `mint_ca_generation`. -/
def mintCert
    (config : Cfg.Config)
    (ca : Cfg.SigningCa)
    (cn : String)
    (rootKeyId : List UInt8)
    (rootSlug : String)
    (publicKey : List UInt8) : SigningCert where
  subjectDn := subjectDn config.pki cn false
  publicKey := publicKey
  extensions :=
    signingCaExtensions config ca rootKeyId rootSlug publicKey config.root.digest

/-- What a certificate may be used for, by one of its extensions. -/
def Extension.usages : Extension → List String
  | .extendedKeyUsage oids => oids
  | _ => []

def Extension.policies : Extension → List String
  | .certificatePolicies oids => oids
  | _ => []

def CaExtension.usages : CaExtension → List String
  | .common e => e.usages
  | _ => []

def CaExtension.policies : CaExtension → List String
  | .common e => e.policies
  | _ => []

def Leaf.usages (leaf : Leaf) : List String :=
  leaf.extensions.flatMap fun e => e.1.usages

def Leaf.policies (leaf : Leaf) : List String :=
  leaf.extensions.flatMap fun e => e.1.policies

def SigningCert.usages (cert : SigningCert) : List String :=
  cert.extensions.flatMap fun e => e.1.usages

def SigningCert.policies (cert : SigningCert) : List String :=
  cert.extensions.flatMap fun e => e.1.policies

/-- What a leaf carries, its issuer carries, and its issuer's policies stand there once. -/
structure Leaf.Within (leaf : Leaf) (cert : SigningCert) : Prop where
  usages : leaf.usages ⊆ cert.usages
  policies : leaf.policies ⊆ cert.policies
  once : cert.policies.Nodup

end Contents

section Unions

theorem mem_addOnce
    {out : List String}
    {oid x : String} :
    x ∈ addOnce out oid ↔ x ∈ out ∨ x = oid := by
  unfold addOnce
  split_ifs with h
  · rw [List.contains_iff_mem] at h
    constructor
    · exact Or.inl
    · rintro (hx | rfl)
      · exact hx
      · exact h
  · simp

theorem nodup_addOnce
    {out : List String}
    (h : out.Nodup)
    (oid : String) :
    (addOnce out oid).Nodup := by
  unfold addOnce
  split_ifs with hmem
  · exact h
  · rw [List.contains_iff_mem] at hmem
    exact List.nodup_append.mpr ⟨h, List.nodup_singleton oid, by
      intro a ha b hb
      rw [List.mem_singleton.mp hb]
      rintro rfl
      exact hmem ha⟩

theorem mem_foldl_addOnce
    {oids out : List String}
    {x : String} :
    x ∈ oids.foldl addOnce out ↔ x ∈ out ∨ x ∈ oids := by
  induction oids generalizing out with
  | nil => simp
  | cons oid rest ih =>
      rw [List.foldl_cons, ih, mem_addOnce, List.mem_cons, or_assoc]

theorem nodup_foldl_addOnce
    {out : List String}
    (h : out.Nodup)
    (oids : List String) :
    (oids.foldl addOnce out).Nodup := by
  induction oids generalizing out with
  | nil => exact h
  | cons oid rest ih => exact ih (nodup_addOnce h oid)

theorem nodup_collectPolicies
    {policies : OrderedMap String (List String)}
    {out : List String}
    (h : out.Nodup)
    (profiles : List String) :
    (profiles.foldl (collectPolicies policies) out).Nodup := by
  induction profiles generalizing out with
  | nil => exact h
  | cons p rest ih =>
      rw [List.foldl_cons]
      refine ih ?_
      unfold collectPolicies
      split
      · exact h
      · exact nodup_foldl_addOnce h _

theorem mem_collectPolicies
    {policies : OrderedMap String (List String)}
    {profiles out : List String}
    {x : String} :
    x ∈ profiles.foldl (collectPolicies policies) out ↔
      x ∈ out ∨ ∃ p ∈ profiles, ∃ oids, policies.find? p = some oids ∧ x ∈ oids := by
  induction profiles generalizing out with
  | nil => simp
  | cons p rest ih =>
      rw [List.foldl_cons, ih]
      cases hfind : policies.find? p with
      | none => simp [collectPolicies, hfind]
      | some oids => simp [collectPolicies, hfind, mem_foldl_addOnce, or_assoc]

/-- The policies of a CA are those of its profiles, each once. -/
theorem nodup_caPolicies (ca : Cfg.SigningCa) :
    (caPolicies ca).Nodup :=
  nodup_collectPolicies List.nodup_nil ca.profiles

theorem mem_caPolicies
    {ca : Cfg.SigningCa}
    {x : String} :
    x ∈ caPolicies ca ↔
      ∃ p ∈ ca.profiles, ∃ oids, ca.policies.find? p = some oids ∧ x ∈ oids := by
  rw [caPolicies, mem_collectPolicies]
  simp

theorem eku_mem_signingCaEkus
    {ca : Cfg.SigningCa}
    {name : String}
    {profile : Profile}
    (hname : name ∈ ca.profiles)
    (hprofile : findProfile name = some profile) :
    eku profile ∈ signingCaEkus ca := by
  refine List.mem_flatMap.mpr ⟨name, hname, ?_⟩
  rw [hprofile]
  exact List.mem_cons_self

/-- The usages and policies of a certificate are those of its section. -/
structure SigningCert.Bears (cert : SigningCert) (ca : Cfg.SigningCa) : Prop where
  usages : cert.usages = signingCaEkus ca
  policies : cert.policies = caPolicies ca

theorem policies_addPolicies (oids : List String) :
    ((addPolicies oids).flatMap fun e => e.1.policies) = oids := by
  unfold addPolicies
  split_ifs with h
  · rw [List.isEmpty_iff.mp h]
    rfl
  · simp [Extension.policies]

theorem usages_addPolicies (oids : List String) :
    ((addPolicies oids).flatMap fun e => e.1.usages) = [] := by
  unfold addPolicies
  split_ifs
  · rfl
  · rfl

theorem mintCert_bears
    (config : Cfg.Config)
    (ca : Cfg.SigningCa)
    (cn : String)
    (rootKeyId : List UInt8)
    (rootSlug : String)
    (publicKey : List UInt8) :
    (mintCert config ca cn rootKeyId rootSlug publicKey).Bears ca := by
  constructor
  · have hnone : (((addPolicies (caPolicies ca)).map fun e => (CaExtension.common e.1, e.2)).flatMap
        fun e => e.1.usages) = [] := by
      rw [List.flatMap_map]
      exact usages_addPolicies _
    simp only [SigningCert.usages, mintCert, signingCaExtensions, signingPointerExtensions,
      List.flatMap_append, hnone]
    split_ifs <;> simp [CaExtension.usages, Extension.usages]
  · have hsame : (((addPolicies (caPolicies ca)).map fun e => (CaExtension.common e.1, e.2)).flatMap
        fun e => e.1.policies) = caPolicies ca := by
      rw [List.flatMap_map]
      exact policies_addPolicies _
    simp only [SigningCert.policies, mintCert, signingCaExtensions, signingPointerExtensions,
      List.flatMap_append, hsame]
    split_ifs <;> simp [CaExtension.policies, Extension.policies]

/-- Whether it is issued or signed, a leaf carries what its profile needs and what its
CA declares for the profile. -/
theorem leaf_carries
    {lib : Parsers}
    {config : Cfg.Config}
    {signer : Signer}
    {name : String}
    {leaf : Leaf}
    (h : (∃ cn extra key, issueLeaf lib config signer name cn extra key = some leaf) ∨
      ∃ r, signLeaf lib config signer name r = some leaf) :
    ∃ profile ca, findProfile name = some profile ∧ issuerFor config name = some ca ∧
      leaf.usages = [eku profile] ∧ leaf.policies = (ca.policies.find? name).getD [] := by
  have hcarries : ∀ (profile : Profile) (ca : Cfg.SigningCa) (key : List UInt8)
      (digest : String) (an : AlternativeName),
      ((eeExtensions config ca name profile signer key digest an).flatMap fun e => e.1.usages) =
          [eku profile] ∧
        ((eeExtensions config ca name profile signer key digest an).flatMap
          fun e => e.1.policies) = (ca.policies.find? name).getD [] := by
    intro profile ca key digest an
    unfold eeExtensions eePointerExtensions
    cases ca.policies.find? name with
    | none => exact ⟨rfl, rfl⟩
    | some oids =>
        simp only [List.flatMap_append, usages_addPolicies, policies_addPolicies]
        simp [Extension.usages, Extension.policies]
  rcases h with ⟨cn, extra, key, h⟩ | ⟨r, h⟩
  · unfold issueLeaf at h
    cases hprofile : findProfile name with
    | none => simp [hprofile] at h
    | some profile =>
        cases hissuer : issuerFor config name with
        | none => simp [hprofile, hissuer] at h
        | some ca =>
            simp only [hprofile, hissuer] at h
            split_ifs at h
            split at h
            · simp at h
            · obtain rfl := Option.some.inj h
              exact ⟨profile, ca, rfl, rfl, hcarries profile ca _ _ _⟩
  · unfold signLeaf at h
    cases hprofile : findProfile name with
    | none => simp [hprofile] at h
    | some profile =>
        cases hissuer : issuerFor config name with
        | none => simp [hprofile, hissuer] at h
        | some ca =>
            simp only [hprofile, hissuer] at h
            split at h
            · simp at h
            · obtain rfl := Option.some.inj h
              exact ⟨profile, ca, rfl, rfl, hcarries profile ca _ _ _⟩

/-- A leaf is within every certificate minted for the section it is issued from. -/
theorem within_of_bears
    {lib : Parsers}
    {config : Cfg.Config}
    {signer : Signer}
    {name : String}
    {ca : Cfg.SigningCa}
    {cert : SigningCert}
    {leaf : Leaf}
    (hissuer : issuerFor config name = some ca)
    (hbears : cert.Bears ca)
    (h : (∃ cn extra key, issueLeaf lib config signer name cn extra key = some leaf) ∨
      ∃ r, signLeaf lib config signer name r = some leaf) :
    leaf.Within cert := by
  obtain ⟨profile, ca', hprofile, hissuer', husages, hpolicies⟩ := leaf_carries h
  obtain rfl := Option.some.inj (hissuer'.symm.trans hissuer)
  have hname : name ∈ ca'.profiles := by
    simpa using List.find?_some hissuer
  constructor
  · rw [husages, hbears.usages]
    intro x hx
    rw [List.mem_singleton.mp hx]
    exact eku_mem_signingCaEkus hname hprofile
  · rw [hpolicies, hbears.policies]
    intro x hx
    cases hfind : ca'.policies.find? name with
    | none => simp [hfind] at hx
    | some oids =>
        rw [hfind] at hx
        exact mem_caPolicies.mpr ⟨name, hname, oids, hfind, hx⟩
  · rw [hbears.policies]
    exact nodup_caPolicies ca'

end Unions

end Bridge
end Yca
