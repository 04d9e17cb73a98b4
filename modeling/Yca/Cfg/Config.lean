import Yca.Ca.Store
import Yca.Core.OrderedMap

/-!
# Configurations

The structs of `src/config.h`, field by field, and the table of profiles of
`src/profile.h`.  Maps are in key order, as `std::map` walks them.
-/

namespace Yca
namespace Cfg

open Yca.Core
open Ca (Profile)

/-- `[pki]`. -/
structure Pki where
  orgName : String
  countryCode : String
  repositoryHost : String
  deriving DecidableEq

/-- `[pkcs11]`. -/
structure Pkcs11 where
  module : String
  tokenLabel : String
  deriving DecidableEq

/-- The fields every CA section carries. -/
structure CaFields where
  cn : String
  curve : String
  digest : String
  validDays : Int
  slugPrefix : String
  slug : String
  keyBackend : String
  tokenLabel : String
  deriving DecidableEq

/-- `[ca.<purpose>]`. -/
structure SigningCa extends CaFields where
  purpose : String
  profiles : List String
  eeCurve : String
  eeDigest : String
  eeValidDays : Int
  simpleDn : Bool
  permittedDns : List String
  permittedEmail : List String
  policies : OrderedMap String (List String)
  deriving DecidableEq

structure Config where
  pki : Pki
  pkcs11 : Pkcs11
  root : CaFields
  cas : OrderedMap String SigningCa
  /-- Keys and sections the loader does not know, one message each. -/
  unknown : List String
  deriving DecidableEq

/-- A CA holds its key on a token. -/
def CaFields.onToken (ca : CaFields) : Bool :=
  ca.keyBackend == "pkcs11"

/-- Some CA of the configuration holds its key on a token. -/
def Config.anyToken (c : Config) : Bool :=
  c.root.onToken || c.cas.entries.any fun e => e.2.onToken

section Profiles

/-- `profile::kDefs`. -/
def profileDefs : List (String × Profile) :=
  [("server", .server), ("client", .client), ("email", .email)]

/-- `profile::find`. -/
def findProfile (name : String) : Option Profile :=
  profileDefs.lookup name

/-- `profile::Def::full_dn`. -/
def fullDn : Profile → Bool
  | .email => true
  | _ => false

end Profiles

end Cfg
end Yca
