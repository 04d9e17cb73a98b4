import Yca.Ca.Commands

/-!
# The names of the generations

`get ca`, `get crl` and `revoke ca` take a *selector*: the common name of a
generation, or an alias for the active generation of a CA.  Both are read from one
name space, the aliases first.
-/

namespace Yca
namespace Ca

open Yca.Core

/-- The purpose an alias `<purpose>-ca` speaks of. -/
def purposeOf (selector : String) : String :=
  String.ofList (selector.toList.take (selector.toList.length - 3))

/-- `resolve_ca_cn`: the name it returns, empty on failure. -/
def resolveName (db : Db) (config : Config) (selector : String) : String :=
  if selector = "root-ca" then (activeCa db config "root").cn
  else if "-ca".toList.isSuffixOf selector.toList && (config.ca (purposeOf selector)).isSome then
    (activeCa db config (purposeOf selector)).cn
  else if selector = "signing-ca" then
    match config.cas with
    | [ca] => (activeCa db config ca.purpose).cn
    | _ => ""
  else selector

/-- The filter on `kind` of the query of `get ca`. -/
def CertRow.isCaOf (row : CertRow) : Option CaKind → Bool
  | none => row.kind == .ca .root || row.kind == .ca .signing
  | some kind => row.kind == .ca kind

/-- `get ca`: the certificate it prints. -/
def getCa (db : Db) (config : Config) (selector : String) : Option Cert :=
  let cn := resolveName db config selector
  if cn = "" then none
  else
    let kind : Option CaKind :=
      if selector = "root-ca" then some .root
      else if selector = cn then none
      -- an alias resolved to a generation of that purpose
      else some .signing
    ((db.certIndex.find? fun row => row.cn == cn && row.isCaOf kind).map
      CertRow.fingerprint).bind (loadCert db)

/-- `get crl`: the slug of the file it prints. -/
def crlSlug (db : Db) (config : Config) (selector : String) : Option String :=
  let cn := resolveName db config selector
  if cn = "" then none
  else
    let root := activeCa db config "root"
    if cn = root.cn then some root.slug else (genByCn db .signing cn).map CaGen.slug

/-- What `revoke ca` makes of its selector. -/
inductive Selected
  /-- The root, which is refused. -/
  | root
  | generation (victim : CaGen)
  deriving DecidableEq

/-- The selection of `revoke_ca`. -/
def revokeTarget (db : Db) (config : Config) (selector : String) : Option Selected :=
  let root := activeCa db config "root"
  if selector = "root-ca" ∨ selector = root.cn then some .root
  else
    let cn := resolveName db config selector
    if cn = "" then none else (genByCn db .signing cn).map .generation

section Aliases

/-- What an alias means. -/
inductive Alias
  /-- The active generation of this purpose. -/
  | active (purpose : String)
  /-- Nothing in particular. -/
  | ambiguous
  deriving DecidableEq

/-- The aliases of a configuration. -/
def Config.aliasOf (config : Config) (name : String) : Option Alias :=
  if name = "root-ca" then some (.active "root")
  else if "-ca".toList.isSuffixOf name.toList && (config.ca (purposeOf name)).isSome then
    some (.active (purposeOf name))
  else if name = "signing-ca" then
    match config.cas with
    | [ca] => some (.active ca.purpose)
    | _ => some .ambiguous
  else none

/-- A common name means its generation: it is no alias, or it is the one of its own
lineage while the generation is active. -/
def CaRow.Unshadowed (config : Config) (r : CaRow) : Prop :=
  ∀ name, config.aliasOf r.cn = some name → name = .active r.purpose ∧ r.status = .active

instance (config : Config) (r : CaRow) : Decidable (r.Unshadowed config) :=
  decidable_of_iff
    (∀ name ∈ config.aliasOf r.cn, name = .active r.purpose ∧ r.status = .active)
    Iff.rfl

variable {db : Db} {config : Config} {name : String}

/-- The name an alias stands for. -/
def Alias.cn (db : Db) (config : Config) : Alias → String
  | active purpose => (activeCa db config purpose).cn
  | ambiguous => ""

/-- A selector is an alias or stands for itself. -/
theorem resolveName_eq (db : Db) (config : Config) (name : String) :
    resolveName db config name =
      ((config.aliasOf name).map (Alias.cn db config)).getD name := by
  unfold resolveName Config.aliasOf
  split
  · rfl
  · split
    · rfl
    · split
      · split <;> rfl
      · rfl

/-- A name that is no alias passes through. -/
theorem resolveName_of_literal
    (h : config.aliasOf name = none) :
    resolveName db config name = name := by
  rw [resolveName_eq, h]
  rfl

theorem resolveName_of_alias
    {a : Alias}
    (h : config.aliasOf name = some a) :
    resolveName db config name = a.cn db config := by
  rw [resolveName_eq, h]
  rfl

/-- An alias is the one of the root or of a configured CA. -/
theorem purpose_of_alias
    {purpose : String}
    (h : config.aliasOf name = some (.active purpose)) :
    purpose = "root" ∨ ∃ ca ∈ config.cas, ca.purpose = purpose := by
  unfold Config.aliasOf at h
  split at h
  · rw [← Alias.active.inj (Option.some.inj h)]
    exact Or.inl rfl
  · split at h
    · rename_i hpurpose
      rw [← Alias.active.inj (Option.some.inj h)]
      obtain ⟨ca, hca⟩ := Option.isSome_iff_exists.mp (Bool.and_eq_true_iff.mp hpurpose).2
      exact Or.inr ⟨ca, List.mem_of_find?_eq_some hca, by simpa using List.find?_some hca⟩
    · split at h
      · split at h
        · rename_i ca hcas
          rw [← Alias.active.inj (Option.some.inj h)]
          exact Or.inr ⟨ca, by rw [hcas]; exact List.mem_cons_self, rfl⟩
        · simp at h
      · simp at h

end Aliases

end Ca
end Yca
