import Yca.Ca.Contract

/-!
# The store `init` creates

`create`: the root ceremony that makes the root, one certificate for every
declared CA, the tables and the published artifacts.  It runs alone, on a store
directory nobody else uses yet, and is a function here; a ceremony that fails
leaves no store to work on.
-/

namespace Yca
namespace Ca

open Yca.Core

/-- The laws of `cfg::load` that span the sections of one file, as far as the
lineages rest on them. -/
structure Config.Accepted (config : Config) : Prop where
  purposes : (config.cas.map SigningCa.purpose).Nodup
  notRoot : ∀ ca ∈ config.cas, ca.purpose ≠ "root"
  cns : (config.root.cn :: config.cas.map fun ca => ca.cn).Nodup
  slugPrefixes : (config.root.slugPrefix :: config.cas.map fun ca => ca.slugPrefix).Nodup
  rootSlug : config.root.slug = config.root.slugPrefix ++ toString 1
  slugs : ∀ ca ∈ config.cas, ca.slug = ca.slugPrefix ++ toString 1

/-- What is drawn at random for one CA. -/
structure Draw where
  key : Key
  serial : List UInt8
  deriving DecidableEq

/-- A CA certificate made in the ceremony, with its key. -/
structure Minted where
  ca : SigningCa
  key : KeyPair
  cert : Cert

/-- `make_ca_key` in the ceremony. -/
def obtainKey (s : Store) (spec : CaSpec) (slug : String) (drawn : Key) :
    Option (KeyPair × Store) :=
  match spec.keyBackend with
  | .internal =>
      some (⟨drawn, drawn⟩, s.apply 0 (.key ⟨none, spec, slug, ⟨drawn, drawn⟩, true⟩))
  | .pkcs11 =>
      match findKeypair (s.tokens spec.tokenLabel) slug spec.curve with
      | none => none
      | some (some pair) => some (pair, s.apply 0 (.key ⟨none, spec, slug, pair, false⟩))
      | some none =>
          some (⟨drawn, drawn⟩, s.apply 0 (.key ⟨none, spec, slug, ⟨drawn, drawn⟩, true⟩))

/-- The self-signed anchor.  The source adds days to a clock of 64-bit nanoseconds; a sum
beyond it is out of reach of the dates here (`OnClock`). -/
def anchor (config : Config) (key : KeyPair) (serial : List UInt8) (now : Nat) : Cert where
  serial := serial
  subjectCn := config.root.cn
  issuerCn := config.root.cn
  notBefore := now
  notAfter := now + config.root.validDays * day
  ski := key.pub
  aki := key.pub
  publicKey := key.pub
  signedBy := key.priv

/-- The generation-1 certificate of an issuing CA. -/
def firstCert
    (ca : SigningCa)
    (rootCert : Cert)
    (rootKey key : KeyPair)
    (serial : List UInt8)
    (now : Nat) : Cert where
  serial := serial
  subjectCn := ca.cn
  issuerCn := rootCert.subjectCn
  notBefore := now
  notAfter := now + ca.validDays * day
  ski := key.pub
  aki := rootCert.ski
  publicKey := key.pub
  signedBy := rootKey.priv

/-- The loop of `create` over the declared CAs. -/
def mintAll (rootCert : Cert) (rootKey : KeyPair) :
    List (SigningCa × Draw) → Store → Option (List Minted × Store)
  | [], s => some ([], s)
  | (ca, d) :: rest, s =>
      match obtainKey s (specOf ca) ca.slug d.key with
      | none => none
      | some (key, s) =>
          match mintAll rootCert rootKey rest s with
          | none => none
          | some (minted, s') =>
              some (⟨ca, key, firstCert ca rootCert rootKey key d.serial s.now⟩ :: minted, s')

/-- The tables after the ceremony.  `ensure_ca_index` records generation 1 of
every CA: each was just issued, and no purpose has a row yet. -/
def ceremonyDb
    (config : Config)
    (rootCert : Cert)
    (rootKey : KeyPair)
    (minted : List Minted) : Db where
  certificates :=
    ⟨rootCert, if config.root.keyBackend = .internal then some rootKey.priv else none⟩ ::
      minted.map fun m => ⟨m.cert, persisted m.ca m.key⟩
  certIndex :=
    indexRow rootCert (.ca .root) "root" ::
      minted.map fun m => indexRow m.cert (.ca .signing) m.ca.purpose
  caIndex :=
    ⟨configGen config "root", .root, .active⟩ ::
      minted.map fun m => ⟨configGen config m.ca.purpose, .signing, .active⟩
  root := config.root
  purposes := config.cas
  enrollment := []

/-- `write_ca_artifacts` in the ceremony. -/
def writeCaArtifacts
    (s : Store)
    (slug : String)
    (cert issuer : Cert)
    (priv : Key)
    (horizonDays : Nat) : Store :=
  ((s.apply 0 (.publish slug issuer (.pem cert))).apply 0
    (.publish slug issuer (.crt cert))).apply 0
      (.publish slug cert
        (.crl
          { entries := []
            number := 1
            thisUpdate := s.now
            nextUpdate := s.now + crlNextUpdate cert horizonDays s.now
            aki := cert.ski
            signedBy := priv }))

/-- The artifacts of every issuing CA. -/
def writeAll (rootCert : Cert) : List Minted → Store → Store
  | [], s => s
  | m :: rest, s =>
      writeAll rootCert rest
        (writeCaArtifacts s m.ca.slug m.cert rootCert m.key.priv crlNextUpdateDays)

/-- A store directory before the ceremony. -/
def blank (config : Config) (tokens : String → List TokenObject) (now : Nat) : Store where
  db :=
    { certIndex := []
      certificates := []
      caIndex := []
      root := config.root
      purposes := []
      enrollment := [] }
  lock := none
  pem _ := none
  crt _ := none
  crl _ := none
  tokens := tokens
  now := now
  log := []

/-- `create`, with every file write succeeding. -/
def create
    (config : Config)
    (root : Draw)
    (draws : List Draw)
    (tokens : String → List TokenObject)
    (now : Nat) : Option Store :=
  match obtainKey (blank config tokens now) (rootSpec config) config.root.slug root.key with
  | none => none
  | some (rootKey, s) =>
      let rootCert := anchor config rootKey root.serial now
      match mintAll rootCert rootKey (config.cas.zip draws) s with
      | none => none
      | some (minted, s) =>
          some
            (writeAll rootCert minted
              (writeCaArtifacts { s with db := ceremonyDb config rootCert rootKey minted }
                config.root.slug rootCert rootCert rootKey.priv rootCrlNextUpdateDays))

/-- A store that `init` made from an accepted configuration. -/
def Initialised (s : Store) : Prop :=
  ∃ config root draws tokens now,
    config.Accepted ∧
    draws.length = config.cas.length ∧
    (root.serial :: draws.map Draw.serial).Nodup ∧
    create config root draws tokens now = some s

section Facts

/-- Keys were obtained for new certificates; only the tokens and the log
differ. -/
structure KeysOnly (s s' : Store) : Prop where
  db : s'.db = s.db
  lock : s'.lock = s.lock
  pem : s'.pem = s.pem
  crl : s'.crl = s.crl
  now : s'.now = s.now
  log : ∀ e ∈ s.log, e ∈ s'.log
  new : ∀ e ∈ s'.log, e ∈ s.log ∨ ∃ use, e = .key use ∧ use.holder = none ∧
    (use.spec.keyBackend = .internal → use.pair.priv = use.pair.pub)

theorem KeysOnly.refl (s : Store) :
    KeysOnly s s :=
  ⟨rfl, rfl, rfl, rfl, rfl, fun _ h => h, fun _ h => Or.inl h⟩

theorem KeysOnly.trans
    {s₁ s₂ s₃ : Store}
    (h₁ : KeysOnly s₁ s₂)
    (h₂ : KeysOnly s₂ s₃) :
    KeysOnly s₁ s₃ where
  db := h₂.db.trans h₁.db
  lock := h₂.lock.trans h₁.lock
  pem := h₂.pem.trans h₁.pem
  crl := h₂.crl.trans h₁.crl
  now := h₂.now.trans h₁.now
  log e he := h₂.log e (h₁.log e he)
  new e he := by
    rcases h₂.new e he with hold | hnew
    · exact h₁.new e hold
    · exact Or.inr hnew

theorem keysOnly_key
    {use : KeyUse}
    (hholder : use.holder = none)
    (hpair : use.spec.keyBackend = .internal → use.pair.priv = use.pair.pub)
    (s : Store) :
    KeysOnly s (s.apply 0 (.key use)) := by
  obtain ⟨hdb, hlock, hpem, hcrl⟩ := apply_key_db 0 use s
  refine ⟨hdb, hlock, hpem, hcrl, apply_now 0 _ s, fun e he => mem_apply_log 0 _ s he, ?_⟩
  intro e he
  rcases List.mem_cons.mp he with rfl | he
  · exact Or.inr ⟨use, rfl, hholder, hpair⟩
  · exact Or.inl he

/-- Obtaining a key leaves its mark in the log and touches no file. -/
theorem obtainKey_spec
    {s s' : Store}
    {spec : CaSpec}
    {slug : String}
    {drawn : Key}
    {pair : KeyPair}
    (h : obtainKey s spec slug drawn = some (pair, s')) :
    KeysOnly s s' ∧
      (∃ generated, Event.key ⟨none, spec, slug, pair, generated⟩ ∈ s'.log) ∧
      (spec.keyBackend = .internal → pair.priv = pair.pub) := by
  unfold obtainKey at h
  split at h
  · obtain ⟨rfl, rfl⟩ := Prod.mk.inj (Option.some.inj h)
    exact ⟨keysOnly_key rfl (fun _ => rfl) s, ⟨true, mem_apply_self 0 (by simp) s⟩, fun _ => rfl⟩
  · rename_i hspec
    have hnot : spec.keyBackend = .internal → pair.priv = pair.pub := by
      simp [hspec]
    split at h
    · simp at h
    · obtain ⟨rfl, rfl⟩ := Prod.mk.inj (Option.some.inj h)
      exact ⟨keysOnly_key rfl hnot s, ⟨false, mem_apply_self 0 (by simp) s⟩, hnot⟩
    · obtain ⟨rfl, rfl⟩ := Prod.mk.inj (Option.some.inj h)
      exact ⟨keysOnly_key rfl hnot s, ⟨true, mem_apply_self 0 (by simp) s⟩, hnot⟩

/-- The declared CAs were minted in order, each with its own key and draw. -/
theorem mintAll_spec
    {rootCert : Cert}
    {rootKey : KeyPair}
    {todo : List (SigningCa × Draw)}
    {s s' : Store}
    {minted : List Minted}
    (h : mintAll rootCert rootKey todo s = some (minted, s')) :
    KeysOnly s s' ∧
      minted.map Minted.ca = todo.map Prod.fst ∧
      minted.map (fun m => m.cert.serial) = todo.map (fun d => d.2.serial) ∧
      ∀ m ∈ minted,
        (∃ serial, m.cert = firstCert m.ca rootCert rootKey m.key serial s.now) ∧
        (∃ generated, Event.key ⟨none, specOf m.ca, m.ca.slug, m.key, generated⟩ ∈ s'.log) ∧
        (m.ca.keyBackend = .internal → m.key.priv = m.key.pub) := by
  induction todo generalizing s s' minted with
  | nil =>
      obtain ⟨rfl, rfl⟩ := Prod.mk.inj (Option.some.inj h)
      exact ⟨KeysOnly.refl s, rfl, rfl, by simp⟩
  | cons cd rest ih =>
      obtain ⟨ca, d⟩ := cd
      simp only [mintAll] at h
      split at h
      · simp at h
      · rename_i key s₁ hkey
        split at h
        · simp at h
        · rename_i minted₁ s₂ hrest
          obtain ⟨rfl, rfl⟩ := Prod.mk.inj (Option.some.inj h)
          obtain ⟨hsame₁, ⟨generated, hlog⟩, hpair⟩ := obtainKey_spec hkey
          obtain ⟨hsame₂, hcas, hserials, hall⟩ := ih hrest
          refine ⟨hsame₁.trans hsame₂, by simp [hcas], by simp [hserials, firstCert], ?_⟩
          intro m hm
          rcases List.mem_cons.mp hm with rfl | hm
          · exact ⟨⟨d.serial, by rw [hsame₁.now]⟩, ⟨generated, hsame₂.log _ hlog⟩, hpair⟩
          · rw [← hsame₁.now]
            exact hall m hm

/-- What writing artifacts leaves behind. -/
theorem writeCaArtifacts_spec
    (s : Store)
    (slug : String)
    (cert issuer : Cert)
    (priv : Key)
    (horizonDays : Nat) :
    (writeCaArtifacts s slug cert issuer priv horizonDays).db = s.db ∧
      (writeCaArtifacts s slug cert issuer priv horizonDays).lock = s.lock ∧
      (writeCaArtifacts s slug cert issuer priv horizonDays).now = s.now ∧
      (writeCaArtifacts s slug cert issuer priv horizonDays).pem =
        Function.update s.pem slug (some cert) ∧
      ∃ crl : Crl,
        (writeCaArtifacts s slug cert issuer priv horizonDays).crl =
          Function.update s.crl slug (some crl) ∧
        crl.thisUpdate = s.now ∧
        crl.signedBy = priv ∧
        (writeCaArtifacts s slug cert issuer priv horizonDays).log =
          .publish slug cert (.crl crl) :: .publish slug issuer (.crt cert) ::
            .publish slug issuer (.pem cert) :: s.log :=
  ⟨rfl, rfl, rfl, rfl, _, rfl, rfl, rfl, rfl⟩

/-- Where the artifacts of every issuing CA ended up. -/
theorem writeAll_spec
    (rootCert : Cert)
    {minted : List Minted}
    (s : Store)
    (hslugs : (minted.map fun m => m.ca.slug).Nodup) :
    (writeAll rootCert minted s).db = s.db ∧
      (writeAll rootCert minted s).lock = s.lock ∧
      (writeAll rootCert minted s).now = s.now ∧
      (∀ slug, (∀ m ∈ minted, m.ca.slug ≠ slug) →
        (writeAll rootCert minted s).pem slug = s.pem slug) ∧
      (∀ m ∈ minted, (writeAll rootCert minted s).pem m.ca.slug = some m.cert) ∧
      (∀ slug crl, (writeAll rootCert minted s).crl slug = some crl →
        s.crl slug = some crl ∨ crl.thisUpdate = s.now) ∧
      (∀ e ∈ s.log, e ∈ (writeAll rootCert minted s).log) ∧
      ∀ e ∈ (writeAll rootCert minted s).log, e ∈ s.log ∨
        ∃ m ∈ minted, ∃ issuer file, e = .publish m.ca.slug issuer file ∧
          ((issuer = rootCert ∧ file.signedBy = m.cert.signedBy) ∨
            (issuer = m.cert ∧ file.signedBy = m.key.priv)) := by
  induction minted generalizing s with
  | nil =>
      exact ⟨rfl, rfl, rfl, fun _ _ => rfl, by simp, fun _ _ h => Or.inl h, fun _ h => h,
        fun _ h => Or.inl h⟩
  | cons m rest ih =>
      simp only [List.map_cons, List.nodup_cons] at hslugs
      obtain ⟨hm, hrest⟩ := hslugs
      have hfresh : ∀ m' ∈ rest, m'.ca.slug ≠ m.ca.slug := by
        intro m' hm' heq
        exact hm (List.mem_map.mpr ⟨m', hm', heq⟩)
      obtain ⟨hdb₁, hlock₁, hnow₁, hpem₁, crl₁, hcrl₁, hthis, hby, hlog₁⟩ :=
        writeCaArtifacts_spec s m.ca.slug m.cert rootCert m.key.priv crlNextUpdateDays
      obtain ⟨hdb, hlock, hnow, hother, hown, hcrl, hold, hnew⟩ :=
        ih (writeCaArtifacts s m.ca.slug m.cert rootCert m.key.priv crlNextUpdateDays) hrest
      refine ⟨hdb.trans hdb₁, hlock.trans hlock₁, hnow.trans hnow₁, ?_, ?_, ?_, ?_, ?_⟩
      · intro slug hslug
        have hne : m.ca.slug ≠ slug := hslug m List.mem_cons_self
        refine (hother slug fun m' hm' => hslug m' (List.mem_cons_of_mem _ hm')).trans ?_
        rw [hpem₁, Function.update_of_ne (Ne.symm hne)]
      · intro m' hm'
        rcases List.mem_cons.mp hm' with rfl | hm'
        · refine (hother m'.ca.slug hfresh).trans ?_
          rw [hpem₁, Function.update_self]
        · exact hown m' hm'
      · intro slug crl h
        rcases hcrl slug crl h with h | h
        · rw [hcrl₁] at h
          by_cases hslug : slug = m.ca.slug
          · subst hslug
            rw [Function.update_self] at h
            rw [← Option.some.inj h]
            exact Or.inr hthis
          · rw [Function.update_of_ne hslug] at h
            exact Or.inl h
        · exact Or.inr (h.trans hnow₁)
      · intro e he
        refine hold e ?_
        rw [hlog₁]
        simp [he]
      · intro e he
        rcases hnew e he with h | ⟨m', hm', h⟩
        · rw [hlog₁] at h
          simp only [List.mem_cons] at h
          rcases h with rfl | rfl | rfl | h
          · exact Or.inr ⟨m, List.mem_cons_self, _, _, rfl, Or.inr ⟨rfl, hby⟩⟩
          · exact Or.inr ⟨m, List.mem_cons_self, _, _, rfl, Or.inl ⟨rfl, rfl⟩⟩
          · exact Or.inr ⟨m, List.mem_cons_self, _, _, rfl, Or.inl ⟨rfl, rfl⟩⟩
          · exact Or.inl h
        · exact Or.inr ⟨m', List.mem_cons_of_mem _ hm', h⟩

/-- What `init` leaves behind. -/
structure Ceremony
    (config : Config)
    (rootCert : Cert)
    (rootKey : KeyPair)
    (minted : List Minted)
    (s : Store) : Prop where
  accepted : config.Accepted
  db : s.db = ceremonyDb config rootCert rootKey minted
  lock : s.lock = none
  root : ∃ serial now, rootCert = anchor config rootKey serial now
  rootPair : config.root.keyBackend = .internal → rootKey.priv = rootKey.pub
  cas : minted.map Minted.ca = config.cas
  certs : ∀ m ∈ minted, ∃ serial now, m.cert = firstCert m.ca rootCert rootKey m.key serial now
  pairs : ∀ m ∈ minted, m.ca.keyBackend = .internal → m.key.priv = m.key.pub
  serials : (rootCert.serial :: minted.map fun m => m.cert.serial).Nodup
  rootPem : s.pem config.root.slug = some rootCert
  pem : ∀ m ∈ minted, s.pem m.ca.slug = some m.cert
  files : ∀ slug cert, s.pem slug = some cert → cert = rootCert ∨ ∃ m ∈ minted, cert = m.cert
  rootEnd : rootCert.notAfter = s.now + config.root.validDays * day
  ends : ∀ m ∈ minted, m.cert.notAfter = s.now + m.ca.validDays * day
  crl : ∀ slug crl, s.crl slug = some crl → crl.thisUpdate = s.now
  log : ∀ e ∈ s.log,
    (∃ use, e = .key use ∧ use.holder = none ∧
      (use.spec.keyBackend = .internal → use.pair.priv = use.pair.pub)) ∨
    ∃ slug issuer file, e = .publish slug issuer file ∧ Made s issuer file.signedBy ∧
      ∃ row ∈ s.db.certIndex, row.isLeaf = false ∧ row.fingerprint = issuer

/-- The slugs of an accepted configuration are pairwise distinct. -/
theorem Config.Accepted.slugs_nodup
    {config : Config}
    (h : config.Accepted) :
    (config.root.slug :: config.cas.map fun ca => ca.slug).Nodup := by
  have hmap : (config.root.slug :: config.cas.map fun ca => ca.slug) =
      (config.root.slugPrefix :: config.cas.map fun ca => ca.slugPrefix).map
        (fun pre => pre ++ toString 1) := by
    simp only [List.map_cons, List.map_map, h.rootSlug]
    congr 1
    refine List.map_congr_left ?_
    intro ca hca
    exact h.slugs ca hca
  rw [hmap]
  refine List.Nodup.map ?_ h.slugPrefixes
  intro a b hab
  have hlist := congrArg String.toList hab
  simp only [String.toList_append, List.append_left_inj] at hlist
  exact String.toList_injective hlist

/-- A ceremony that is completed made its keys, then its certificates, and wrote them. -/
theorem create_eq_some
    {config : Config}
    {root : Draw}
    {draws : List Draw}
    {tokens : String → List TokenObject}
    {now : Nat}
    {s : Store}
    (h : create config root draws tokens now = some s) :
    ∃ rootKey s₁ minted s₂,
      obtainKey (blank config tokens now) (rootSpec config) config.root.slug root.key =
        some (rootKey, s₁) ∧
      mintAll (anchor config rootKey root.serial now) rootKey (config.cas.zip draws) s₁ =
        some (minted, s₂) ∧
      writeAll (anchor config rootKey root.serial now) minted
        (writeCaArtifacts
          { s₂ with db := ceremonyDb config (anchor config rootKey root.serial now) rootKey minted }
          config.root.slug (anchor config rootKey root.serial now)
          (anchor config rootKey root.serial now) rootKey.priv rootCrlNextUpdateDays) = s := by
  unfold create at h
  split at h
  · simp at h
  · rename_i rootKey s₁ hroot
    simp only at h
    split at h
    · simp at h
    · rename_i minted s₂ hminted
      exact ⟨rootKey, s₁, minted, s₂, hroot, hminted, Option.some.inj h⟩

/-- Every initialised store is what a ceremony left behind. -/
theorem Initialised.ceremony
    {s : Store}
    (h : Initialised s) :
    ∃ config rootCert rootKey minted, Ceremony config rootCert rootKey minted s := by
  obtain ⟨config, root, draws, tokens, now, hconfig, hlength, hserials, hcreate⟩ := h
  obtain ⟨rootKey, s₁, minted, s₂, hroot, hminted, hstore⟩ := create_eq_some hcreate
  obtain ⟨hsame₁, ⟨generated, hrootLog⟩, hrootPair⟩ := obtainKey_spec hroot
  obtain ⟨hsame₂, hcas, hdrawn, hall⟩ := mintAll_spec hminted
  have hcas' : minted.map Minted.ca = config.cas := by
    rw [hcas, List.map_fst_zip (by omega)]
  have hdraws : minted.map (fun m => m.cert.serial) = draws.map Draw.serial := by
    calc minted.map (fun m => m.cert.serial)
        = ((config.cas.zip draws).map Prod.snd).map Draw.serial := by
          rw [hdrawn, List.map_map]
          rfl
      _ = draws.map Draw.serial := by rw [List.map_snd_zip (by omega)]
  have hslugs := hconfig.slugs_nodup
  rw [← hcas', List.map_map, List.nodup_cons] at hslugs
  obtain ⟨hrootSlug, hcaSlugs⟩ := hslugs
  have hnotRoot : ∀ m ∈ minted, m.ca.slug ≠ config.root.slug := by
    intro m hm heq
    exact hrootSlug (List.mem_map.mpr ⟨m, hm, heq⟩)
  generalize hrootCert : anchor config rootKey root.serial now = rootCert at *
  have hnow : s₂.now = now := hsame₂.now.trans hsame₁.now
  obtain ⟨hdb₃, hlock₃, hnow₃, hpem₃, crl₃, hcrl₃, hthis₃, hby₃, hlog₃⟩ :=
    writeCaArtifacts_spec { s₂ with db := ceremonyDb config rootCert rootKey minted }
      config.root.slug rootCert rootCert rootKey.priv rootCrlNextUpdateDays
  obtain ⟨hdb, hlock, hnow₄, hother, hown, hcrl, hold, hnew⟩ :=
    writeAll_spec rootCert (writeCaArtifacts
      { s₂ with db := ceremonyDb config rootCert rootKey minted }
      config.root.slug rootCert rootCert rootKey.priv rootCrlNextUpdateDays) hcaSlugs
  rw [hstore] at hdb hlock hnow₄ hother hown hcrl hold hnew
  have hnow₅ : s.now = s₂.now := hnow₄.trans hnow₃
  have hkeys : ∀ e ∈ s₂.log, e ∈ s.log := by
    intro e he
    refine hold e ?_
    rw [hlog₃]
    simp [he]
  have hrootSigned : Made s rootCert rootKey.priv := by
    refine ⟨_, hkeys _ (hsame₂.log _ hrootLog), rfl, rfl, ?_⟩
    rw [← hrootCert]
    rfl
  have hrootRow : ∃ row ∈ s.db.certIndex, row.isLeaf = false ∧ row.fingerprint = rootCert := by
    rw [hdb, hdb₃]
    exact ⟨_, List.mem_cons_self, rfl, rfl⟩
  refine ⟨config, rootCert, rootKey, minted, ?_⟩
  refine
    { accepted := hconfig
      db := hdb.trans hdb₃
      lock := ?_
      root := ⟨root.serial, now, hrootCert.symm⟩
      rootPair := hrootPair
      cas := hcas'
      certs := ?_
      pairs := fun m hm => (hall m hm).2.2
      serials := ?_
      rootPem := ?_
      pem := hown
      files := ?_
      rootEnd := ?_
      ends := ?_
      crl := ?_
      log := ?_ }
  · rw [hlock, hlock₃]
    exact hsame₂.lock.trans hsame₁.lock
  · intro m hm
    obtain ⟨⟨serial, hcert⟩, _⟩ := hall m hm
    exact ⟨serial, _, hcert⟩
  · rw [hdraws, ← hrootCert]
    exact hserials
  · rw [hother config.root.slug hnotRoot, hpem₃, Function.update_self]
  · intro slug cert h
    by_cases hslug : ∃ m ∈ minted, m.ca.slug = slug
    · obtain ⟨m, hm, rfl⟩ := hslug
      rw [hown m hm] at h
      exact Or.inr ⟨m, hm, (Option.some.inj h).symm⟩
    · rw [hother slug fun m hm heq => hslug ⟨m, hm, heq⟩, hpem₃] at h
      by_cases hroot : slug = config.root.slug
      · rw [hroot, Function.update_self] at h
        exact Or.inl (Option.some.inj h).symm
      · rw [Function.update_of_ne hroot] at h
        have hblank : s₂.pem slug = none := by
          rw [hsame₂.pem, hsame₁.pem]
          rfl
        simp [hblank] at h
  · rw [← hrootCert, hnow₅, hnow]
    rfl
  · intro m hm
    obtain ⟨⟨serial, hcert⟩, _⟩ := hall m hm
    rw [hcert, hnow₅, hnow, ← (show s₁.now = now from hsame₁.now)]
    rfl
  · intro slug crl h
    rcases hcrl slug crl h with h | h
    · rw [hcrl₃] at h
      by_cases hslug : slug = config.root.slug
      · subst hslug
        rw [Function.update_self] at h
        rw [← Option.some.inj h, hthis₃, hnow₅]
      · rw [Function.update_of_ne hslug] at h
        have hblank : s₂.crl slug = none := by
          rw [hsame₂.crl, hsame₁.crl]
          rfl
        simp [hblank] at h
    · rw [h, hnow₃, hnow₅]
  · intro e he
    rcases hnew e he with h | ⟨m, hm, issuer, file, rfl, h⟩
    · rw [hlog₃] at h
      simp only [List.mem_cons] at h
      rcases h with rfl | rfl | rfl | h
      · refine Or.inr ⟨_, _, _, rfl, ?_, hrootRow⟩
        show Made s rootCert crl₃.signedBy
        rw [hby₃]
        exact hrootSigned
      · refine Or.inr ⟨_, _, _, rfl, ?_, hrootRow⟩
        rw [← hrootCert] at hrootSigned ⊢
        exact hrootSigned
      · refine Or.inr ⟨_, _, _, rfl, ?_, hrootRow⟩
        rw [← hrootCert] at hrootSigned ⊢
        exact hrootSigned
      · left
        rcases (hsame₁.trans hsame₂).new e h with h | h
        · simp [blank] at h
        · exact h
    · obtain ⟨⟨serial, hcert⟩, ⟨generated', hkey⟩, _⟩ := hall m hm
      rcases h with ⟨rfl, h⟩ | ⟨rfl, h⟩
      · refine Or.inr ⟨_, issuer, file, rfl, ?_, hrootRow⟩
        rw [h, hcert]
        exact hrootSigned
      · refine Or.inr ⟨_, m.cert, file, rfl, ?_, ?_⟩
        · rw [h]
          refine ⟨_, hkeys _ hkey, rfl, rfl, ?_⟩
          rw [hcert]
          rfl
        · rw [hdb, hdb₃]
          exact ⟨_, List.mem_cons_of_mem _ (List.mem_map_of_mem hm), rfl, rfl⟩

/-- The generation-1 identity of a declared CA. -/
theorem Config.Accepted.configGen_ca
    {config : Config}
    (h : config.Accepted)
    {ca : SigningCa}
    (hca : ca ∈ config.cas) :
    configGen config ca.purpose = ⟨ca.purpose, 1, ca.cn, ca.slug⟩ := by
  have hunique : UniqueKey SigningCa.purpose config.cas := h.purposes
  have hfind : config.ca ca.purpose = some ca := hunique.find?_eq hca
  simp [configGen, h.notRoot ca hca, hfind]

/-- The generations on record after the ceremony. -/
theorem Ceremony.caIndex
    {config : Config}
    {rootCert : Cert}
    {rootKey : KeyPair}
    {minted : List Minted}
    {s : Store}
    (h : Ceremony config rootCert rootKey minted s) :
    s.db.caIndex =
      ⟨⟨"root", 1, config.root.cn, config.root.slug⟩, .root, .active⟩ ::
        minted.map fun m => ⟨⟨m.ca.purpose, 1, m.ca.cn, m.ca.slug⟩, .signing, .active⟩ := by
  rw [h.db]
  refine congrArg₂ List.cons rfl (List.map_congr_left ?_)
  intro m hm
  have hca : m.ca ∈ config.cas := by
    rw [← h.cas]
    exact List.mem_map_of_mem hm
  rw [h.accepted.configGen_ca hca]

/-- No two CAs of the ceremony share a common name. -/
theorem Ceremony.cns
    {config : Config}
    {rootCert : Cert}
    {rootKey : KeyPair}
    {minted : List Minted}
    {s : Store}
    (h : Ceremony config rootCert rootKey minted s) :
    (config.root.cn :: minted.map fun m => m.ca.cn).Nodup := by
  have hcns := h.accepted.cns
  rw [← h.cas, List.map_map] at hcns
  exact hcns

end Facts

section Sample

/-- Two issuing CAs under one root, all keys in the store. -/
def sampleConfig : Config where
  root := ⟨"Root R", "secp384r1", 3650, "ca-r", "ca-r1", .internal, ""⟩
  cas :=
    [ ⟨⟨"CA E1", "secp256r1", 1825, "ca-e", "ca-e1", .internal, ""⟩, "tls",
        [.server, .client], 90⟩,
      ⟨⟨"CA M1", "secp256r1", 1825, "ca-m", "ca-m1", .internal, ""⟩, "mail", [.email], 90⟩ ]

/-- What `init` makes of it. -/
def sampleStore : Store :=
  (create sampleConfig ⟨1, [0x41]⟩ [⟨2, [0x42]⟩, ⟨3, [0x43]⟩] (fun _ => []) 1000).getD
    (blank sampleConfig (fun _ => []) 0)

theorem sampleStore_initialised :
    Initialised sampleStore := by
  refine ⟨sampleConfig, ⟨1, [0x41]⟩, [⟨2, [0x42]⟩, ⟨3, [0x43]⟩], fun _ => [], 1000, ?_, rfl,
    by decide, rfl⟩
  exact ⟨by decide, by decide, by decide, by decide, by decide, by decide⟩

/-- What a step draws when it draws. -/
def sampleChoice (key : Key) : Choice :=
  ⟨true, [0x50, UInt8.ofNat key], key, ""⟩

/-- Several steps of one process. -/
def acts (p : Pid) (n : Nat) (k : Choice) : List (Action Choice Request Outside) :=
  List.replicate n (.act p k)

end Sample

end Ca
end Yca
