import Yca.Core.Automaton
import Yca.Core.Interleaving
import Yca.Core.Observer
import Yca.Core.Refinement
import Yca.Core.Chronicle
import Yca.Core.Solo
import Yca.Core.Walk
import Yca.Core.Files
import Yca.Core.Paths
import Yca.Core.Labels
import Yca.Core.Separated
import Yca.Core.Numerals
import Yca.Core.Base64
import Yca.Core.Der
import Yca.Core.Stops
import Yca.Core.Rounding
import Yca.Acme.Names
import Yca.Acme.Store
import Yca.Acme.State
import Yca.Acme.Csr
import Yca.Acme.Handlers
import Yca.Acme.Steps
import Yca.Acme.Change
import Yca.Acme.Finalize
import Yca.Acme.Invariant
import Yca.Acme.Allow
import Yca.Acme.Expiry
import Yca.Acme.Assertions
import Yca.Acme.Outline
import Yca.Acme.Authorizations
import Yca.Acme.Orders
import Yca.Acme.Pages
import Yca.Acme.Statements
import Yca.Acme.Certificates
import Yca.Acme.Downloads
import Yca.Acme.Offers
import Yca.Acme.Grace
import Yca.Acme.Withdrawal
import Yca.Acme.Readiness
import Yca.Acme.Lifecycle
import Yca.Acme.OrderLife
import Yca.Acme.Completion
import Yca.Acme.Jws
import Yca.Acme.ReplayNonces
import Yca.Acme.Registry
import Yca.Acme.Registration
import Yca.Acme.Requests
import Yca.Acme.KeyChange
import Yca.Acme.Deactivation
import Yca.Acme.RevokeCert
import Yca.Ca.Names
import Yca.Ca.NameConstraints
import Yca.Ca.Request
import Yca.Bridge.CsrNames
import Yca.Bridge.NameBytes
import Yca.Ca.Store
import Yca.Ca.Commands
import Yca.Ca.Selectors
import Yca.Ca.Contract
import Yca.Ca.Safety
import Yca.Ca.Initial
import Yca.Ca.Uniqueness
import Yca.Ca.Listing
import Yca.Ca.Retention
import Yca.Ca.Repeats
import Yca.Ca.Revocation
import Yca.Ca.Generations
import Yca.Ca.Signatures
import Yca.Bridge.RenewalWindow
import Yca.Bridge.SerialText
import Yca.Bridge.AriIds
import Yca.Ca.Accounts
import Yca.Ca.Conduct
import Yca.Ca.Nonces
import Yca.Ca.Handout
import Yca.Ca.Founding
import Yca.Ca.Outliving
import Yca.Ca.Succession
import Yca.Ca.Pruning
import Yca.Bridge.Fetch
import Yca.Ca.Alone
import Yca.Ca.Lineage
import Yca.Ca.Issuers
import Yca.Ca.Naming
import Yca.Ca.Sections
import Yca.Ca.Additions
import Yca.Ca.RevokedCas
import Yca.Bridge.Duplicates
import Yca.Bridge.IssuerContents
import Yca.Bridge.Containment
import Yca.Bridge.LeafContents
import Yca.Bridge.SanBytes
import Yca.Core.OrderedMap
import Yca.Core.Toml
import Yca.Cfg.Config
import Yca.Cfg.Load
import Yca.Cfg.Accepted
import Yca.Cfg.Columns
import Yca.Cfg.Locked
import Yca.Cfg.Validity
import Yca.Cfg.Print
import Yca.Cfg.Reload
import Yca.Cfg.Reprint
import Yca.Cfg.Misread
import Yca.Cfg.SlugFamilies
import Yca.Bridge.Tsv
import Yca.Bridge.Delivery
import Yca.Bridge.Artifacts
import Yca.Bridge.WriteFile
import Yca.Bridge.Interrupted
